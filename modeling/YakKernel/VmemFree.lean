/-
# Freeing a segment

`vmem_xfree` finds the segment on its hash list, merges it with free neighbours, and gives the
span back to the source if it was imported and nothing in it is allocated any more.
-/
import YakKernel.VmemArena

namespace Vmem

open SegmentQueue

variable {spans : List Span} {hand : List ℕ} {s s' : Arena} {t u : ℕ}

/-! ## Finding the segment -/

theorem Apart.symm {tags : ℕ → VmemTag} (h : Apart tags t u) : Apart tags u t := Or.symm h

theorem SpanOk.apart {tags : ℕ → VmemTag} {sp : Span} (h : SpanOk tags sp) (ht : t ∈ sp.segs)
    (hu : u ∈ sp.segs) (hne : t ≠ u) : Apart tags t u := by
  have hpair := List.pairwise_map.mp h.tiles.pairwise
  obtain ⟨l, r, hlr⟩ := List.append_of_mem ht
  rw [hlr] at hpair hu
  obtain ⟨-, hr, hl⟩ := List.pairwise_append.mp hpair
  rcases List.mem_append.mp hu with hu | hu
  · exact Or.inr (hl u hu t List.mem_cons_self)
  · rcases List.mem_cons.mp hu with rfl | hu
    · exact absurd rfl hne
    · exact Or.inl ((List.pairwise_cons.mp hr).1 u hu)

/-- **No two segments of an arena overlap.** -/
theorem Core.apart_segs (h : Core spans hand s) {sp sp' : Span} (hsp : sp ∈ spans)
    (hsp' : sp' ∈ spans) (ht : t ∈ sp.segs) (hu : u ∈ sp'.segs) (hne : t ≠ u) :
    Apart s.tags t u := by
  have htr := (h.span sp hsp).mem_range ht
  have hur := (h.span sp' hsp').mem_range hu
  have hapart := h.apart
  rw [h.linked.spanlist] at hapart
  have hok := h.span sp hsp
  obtain ⟨a, b, rfl⟩ := List.append_of_mem hsp
  rw [List.map_append, List.map_cons, List.pairwise_append, List.pairwise_cons] at hapart
  obtain ⟨-, ⟨hb, -⟩, ha⟩ := hapart
  rcases List.mem_append.mp hsp' with hm | hm
  · rcases ha _ (List.mem_map_of_mem hm) sp.tag List.mem_cons_self with h' | h'
    · exact Or.inr (by omega)
    · exact Or.inl (by omega)
  · rcases List.mem_cons.mp hm with rfl | hm
    · exact hok.apart ht hu hne
    · rcases hb _ (List.mem_map_of_mem hm) with h' | h'
      · exact Or.inl (by omega)
      · exact Or.inr (by omega)

theorem Core.exists_of_live (h : Core spans hand s) {addr size : ℕ}
    (hlive : (addr, size) ∈ s.live) : ∃ a b g l t r, spans = a ++ ⟨g, l ++ t :: r⟩ :: b ∧
      s.tags t = ⟨.allocated, addr, size⟩ := by
  have hm := h.live.mem_iff.mp hlive
  unfold allocs at hm
  obtain ⟨t, ht, hrange⟩ := List.mem_map.mp hm
  obtain ⟨hall, htype⟩ := List.mem_filter.mp ht
  have htype := of_decide_eq_true htype
  rcases h.type_cases hall with ⟨sp, hsp, hts⟩ | hspan
  · obtain ⟨a, b, g, l, r, rfl, -⟩ := exists_split hsp hts
    refine ⟨a, b, g, l, t, r, rfl, ?_⟩
    rw [range, Prod.mk.injEq] at hrange
    rw [← htype, ← hrange.1, ← hrange.2]
  · rcases hspan with hspan | hspan <;> rw [htype] at hspan <;> cases hspan

/-- **`lookup_alloc`** finds the tag of a live allocation. -/
theorem Core.lookupAlloc {a b : List Span} {g : ℕ} {l r : List ℕ} {addr size : ℕ}
    (h : Core (a ++ ⟨g, l ++ t :: r⟩ :: b) hand s)
    (ht : s.tags t = ⟨.allocated, addr, size⟩) :
    Vmem.lookupAlloc s addr size = some t := by
  have hmem : t ∈ s.hashlists (hashIndex addr) := by
    rw [h.linked.hashlist]
    refine ⟨h.linked.seg_mem, by simp, ?_, ?_⟩
    · rw [ht]
    · rw [ht]
  have hfind : (s.hashlists (hashIndex addr)).find? (fun u => decide ((s.tags u).start = addr)) =
      some t := by
    cases hf : (s.hashlists (hashIndex addr)).find? (fun u => decide ((s.tags u).start = addr)) with
    | none =>
      have := List.find?_eq_none.mp hf t hmem
      simp [ht] at this
    | some u =>
      have hu := List.mem_of_find?_eq_some hf
      have hstart : (s.tags u).start = addr := by simpa using List.find?_some hf
      obtain ⟨hall, -, htype, -⟩ := (h.linked.hashlist _ u).mp hu
      rcases h.type_cases hall with ⟨sp, hsp, hus⟩ | hspan
      · by_contra hne
        have hne' : t ≠ u := fun he => hne (by rw [he])
        have hspt : (⟨g, l ++ t :: r⟩ : Span) ∈ a ++ ⟨g, l ++ t :: r⟩ :: b := by simp
        have htm : t ∈ (⟨g, l ++ t :: r⟩ : Span).segs := by simp
        have hts := (h.span _ hspt).size t htm
        have hus' := (h.span sp hsp).size u hus
        have := h.apart_segs hspt hsp htm hus hne'
        rw [Apart, ht, hstart] at this
        rw [ht] at hts
        simp only [] at this hts
        omega
      · rcases hspan with hspan | hspan <;> rw [htype] at hspan <;> cases hspan
  unfold Vmem.lookupAlloc
  rw [hfind]
  simp [ht]

/-! ## Merging -/

/-- The tag of a segment that is being freed. -/
def freed (s : Arena) (t : ℕ) : Arena :=
  setTag (listRemove s t) t { s.tags t with type := .free }

/-- **Both merges together**: the segments `m` around the freed one become the free one `w`. -/
theorem Core.merge {a b : List Span} {g : ℕ} {l r : List ℕ}
    (h : Core (a ++ ⟨g, l ++ t :: r⟩ :: b) [] s) (ht : (s.tags t).type = .allocated) :
    ∃ l' lf rf r' u s₃ w s₄, l = l' ++ lf ∧ r = rf ++ r' ∧
      mergeLeft (freed s t) t ((g :: l).getLast (List.cons_ne_nil g l)) = (u, s₃) ∧
      prevOf t (freed s t).allTags = some ((g :: l).getLast (List.cons_ne_nil g l)) ∧
      prevOf u s₃.allTags = some ((g :: l').getLast (List.cons_ne_nil g l')) ∧
      mergeRight s₃ u (nextOf u s₃.allTags) = (w, s₄) ∧
      Linked (a ++ ⟨g, l' ++ w :: r'⟩ :: b) [] [w] s₄ ∧ SameBooks s s₄ ∧
      Merged (freed s t).tags s₄.tags (lf ++ [t] ++ rf) t w ∧
      (∀ v ∈ l'.getLast?, (s.tags v).type ≠ .free) ∧
      (∀ v ∈ r'.head?, (s.tags v).type ≠ .free) := by
  have hspan : SpanOk s.tags ⟨g, l ++ t :: r⟩ := h.span _ (by simp)
  have htm : t ∈ (⟨g, l ++ t :: r⟩ : Span).segs := by simp
  have htag : ∀ sp ∈ a ++ ⟨g, l ++ t :: r⟩ :: b, t ≠ sp.tag :=
    fun sp hsp => hspan.ne_tag (h.span sp hsp) htm
  have hlink : Linked (a ++ ⟨g, l ++ t :: r⟩ :: b) [] [t] (freed s t) :=
    (h.linked.listRemove htag).setTag _ (Or.inr List.mem_cons_self)
  have hother : ∀ v, v ≠ t → (freed s t).tags v = s.tags v := by
    intro v hv
    simp [freed, setTag, listRemove, hv]
  have hspans : ∀ sp ∈ a ++ ⟨g, l ++ t :: r⟩ :: b, ((freed s t).tags sp.tag).type ≠ .free := by
    intro sp hsp
    rw [hother _ (Ne.symm (htag sp hsp))]
    rcases (h.span sp hsp).type with hs | hs <;> simp [hs]
  have hnodup := h.linked.nodup_queue
  rw [queue_split, List.nodup_append] at hnodup
  have htl : ∀ v ∈ l, v ≠ t := fun v hv he =>
    hnodup.2.2 t (by rw [← he]; simp [hv]) t List.mem_cons_self rfl
  have htr : ∀ v ∈ r, v ≠ t := by
    rintro v hv rfl
    exact (List.nodup_cons.mp hnodup.2.1).1 (List.mem_append_left _ hv)
  have hchain := hspan.alternate
  rw [List.isChain_append] at hchain
  have hrange : range (freed s t).tags = range s.tags := by
    funext v
    by_cases hv : v = t
    · subst hv
      simp [range, freed, setTag, listRemove]
    · rw [range, range, hother v hv]
  have hsize : ∀ v, ((freed s t).tags v).size = (s.tags v).size :=
    fun v => congrArg Prod.snd (congrFun hrange v)
  -- the merge to the left
  obtain ⟨l', lf, u, s₃, hleft, rfl, hlink₃, hbooks₃, hmerged₃, hlast⟩ :=
    mergeLeft_spec hlink hspans (by simp [freed, setTag])
      (isChain_congr (fun v hv => hother v (htl v hv)) hchain.1) (by
        intro v hv
        have hv' : v ∈ (⟨g, l ++ t :: r⟩ : Span).segs := by simp [hv]
        have := hspan.apart hv' htm (htl v hv)
        have h₁ := hspan.mem_range hv'
        have h₂ := hspan.mem_range htm
        have := hspan.bound
        rw [hsize, hsize]
        unfold Apart at *
        omega)
  have htiles := hspan.tiles
  have hsegs : l' ++ lf ++ t :: r = l' ++ (lf ++ [t]) ++ r := by simp
  simp only [hsegs, List.map_append, tiles_append] at htiles
  obtain ⟨y, ⟨x, htl', htm'⟩, htr'⟩ := htiles
  have hu := hmerged₃.range x y (by
    rw [hrange, List.map_append, tiles_append]
    exact htm')
  have hbound : (s.tags g).start + (s.tags g).size < 2 ^ 64 := hspan.bound
  have hrm : ∀ v ∈ r, v ∉ lf ++ [t] := by
    intro v hv hm
    rcases List.mem_append.mp hm with hm | hm
    · have hvl : v ∈ queue a ++ g :: (l' ++ lf) := by simp [hm]
      have hvr : v ∈ t :: (r ++ queue b) := by simp [hv]
      exact hnodup.2.2 v hvl v hvr rfl
    · exact htr v hv (List.mem_singleton.mp hm)
  have hsame₃ : ∀ v ∈ r, s₃.tags v = s.tags v := by
    intro v hv
    rw [hmerged₃.same v (hrm v hv), hother v (htr v hv)]
  have hspans₃ : ∀ sp ∈ a ++ ⟨g, l' ++ u :: r⟩ :: b, (s₃.tags sp.tag).type ≠ .free := by
    intro sp hsp
    obtain ⟨sp₀, hsp₀, he⟩ : ∃ sp₀ ∈ a ++ ⟨g, l' ++ lf ++ t :: r⟩ :: b, sp₀.tag = sp.tag := by
      rcases List.mem_append.mp hsp with hsp | hsp
      · exact ⟨sp, by simp [hsp], rfl⟩
      · rcases List.mem_cons.mp hsp with rfl | hsp
        · exact ⟨⟨g, l' ++ lf ++ t :: r⟩, by simp, rfl⟩
        · exact ⟨sp, by simp [hsp], rfl⟩
    have hnot : sp₀.tag ∉ lf ++ [t] := by
      intro hm
      have hm' : sp₀.tag ∈ (⟨g, l' ++ lf ++ t :: r⟩ : Span).segs := by
        rcases List.mem_append.mp hm with hm | hm
        · simp [hm]
        · simp [List.mem_singleton.mp hm]
      exact hspan.ne_tag (h.span sp₀ hsp₀) hm' rfl
    rw [← he, hmerged₃.same _ hnot]
    exact hspans sp₀ hsp₀
  -- the merge to the right
  obtain ⟨r', rf, w, s₄, hright, rfl, hlink₄, hbooks₄, hmerged₄, hhead⟩ :=
    mergeRight_spec hlink₃ hspans₃ hmerged₃.type
      (isChain_congr hsame₃ (List.isChain_cons.mp hchain.2.1).2) (by
        intro v hv
        have hvr := htr'.mem (List.mem_map_of_mem (f := range s.tags) hv)
        have hxy := (tiles_append.mpr htm').le
        rw [range, Prod.mk.injEq] at hu
        rw [hsame₃ v hv, hu.2]
        have hvb : (s.tags v).start + (s.tags v).size ≤ (s.tags g).start + (s.tags g).size := hvr.2
        have hvy : y ≤ (s.tags v).start := hvr.1
        omega)
  refine ⟨l', lf, rf, r', u, s₃, w, s₄, rfl, rfl, hleft, hlink.prevOf_eq, hlink₃.prevOf_eq,
    hright, hlink₄, ?_, ?_, ?_, ?_⟩
  · exact (⟨rfl, rfl, rfl, rfl⟩ : SameBooks s (freed s t)).trans (hbooks₃.trans hbooks₄)
  · exact hmerged₃.trans hmerged₄ (fun v hv => hrm v (List.mem_append_left _ hv))
  · intro v hv
    have hne : v ≠ t := htl v (List.mem_append_left _ (List.mem_of_getLast? hv))
    have := hlast v hv
    rwa [hother v hne] at this
  · intro v hv
    have := hhead v hv
    rwa [hsame₃ v (List.mem_append_right _ (List.mem_of_head? hv))] at this

theorem range_freed (s : Arena) (t : ℕ) : range (freed s t).tags = range s.tags := by
  funext v
  by_cases hv : v = t
  · subst hv
    simp [range, freed, setTag, listRemove]
  · simp [range, freed, setTag, listRemove, hv]

theorem Core.merged {a b : List Span} {g w : ℕ} {l m r : List ℕ} {tags' : ℕ → VmemTag}
    {addr size : ℕ} (h : Core (a ++ ⟨g, l ++ m ++ r⟩ :: b) [] s) (htm : t ∈ m)
    (ht : s.tags t = ⟨.allocated, addr, size⟩) (hm : Merged (freed s t).tags tags' m t w)
    (hlast : ∀ v ∈ l.getLast?, (s.tags v).type ≠ .free)
    (hhead : ∀ v ∈ r.head?, (s.tags v).type ≠ .free) :
    SameElse a b g l m r s.tags tags' ∧ SpanOk tags' ⟨g, l ++ [w] ++ r⟩ ∧
      allocs s.tags m = [(addr, size)] ∧
      ∃ x y, Tiles (s.tags g).start (l.map (range s.tags)) x ∧
        Tiles y (r.map (range s.tags)) ((s.tags g).start + (s.tags g).size) ∧ x ≤ y ∧
        range tags' w = (x, y - x) := by
  have hspan : SpanOk s.tags ⟨g, l ++ m ++ r⟩ := h.span _ (by simp)
  have hother : ∀ v, v ≠ t → (freed s t).tags v = s.tags v := by
    intro v hv
    simp [freed, setTag, listRemove, hv]
  have hsame : ∀ v, v ∉ m → tags' v = s.tags v := by
    intro v hv
    rw [hm.same v hv, hother v (fun he => hv (he ▸ htm))]
  have helse : SameElse a b g l m r s.tags tags' :=
    SameElse.of_ne h.linked (fun v hv _ => hsame v hv)
  have hsize : 2 ≤ size := by
    have := hspan.size t (by simp [htm])
    rwa [ht] at this
  have htiles := hspan.tiles
  simp only [List.map_append, tiles_append] at htiles
  obtain ⟨y, ⟨x, htl, htm'⟩, htr⟩ := htiles
  have hw := hm.range x y (by rw [range_freed]; exact htm')
  -- the freed segment lies in what was merged
  have hxy : x + 2 ≤ y := by
    have h₁ := htm'.mem (List.mem_map_of_mem (f := range s.tags) htm)
    simp only [range, ht] at h₁
    omega
  refine ⟨helse, ?_, ?_, x, y, htl, htr, by omega, hw⟩
  · refine hspan.replace ?_ (by simp) ?_ ?_ ?_ (List.isChain_singleton w) ?_ ?_
    · intro v hv
      rcases List.mem_cons.mp hv with rfl | hv
      · exact helse.tag
      · rcases List.mem_append.mp hv with hv | hv
        · exact helse.left v hv
        · exact helse.right v hv
    · intro v hv
      rw [List.mem_singleton.mp hv]
      exact Or.inl hm.type
    · intro v hv
      rw [List.mem_singleton.mp hv]
      have : (tags' w).size = y - x := congrArg Prod.snd hw
      omega
    · intro x' y' hxy'
      have hw' := hm.range x' y' (by rw [range_freed]; exact hxy')
      have hle := hxy'.le
      simp only [List.map_cons, List.map_nil, hw', tiles_cons, tiles_nil, true_and]
      omega
    · intro v hv w' hw'
      rw [NotBothFree, helse.left v (List.mem_of_getLast? hv)]
      exact fun hboth => hlast v hv hboth.1
    · intro w' _ v hv
      rw [NotBothFree, helse.right v (List.mem_of_head? hv)]
      exact fun hboth => hhead v hv hboth.2
  · have hnodup := h.linked.nodup_queue
    rw [queue_mid] at hnodup
    have hmn : m.Nodup :=
      (List.nodup_append.mp (List.nodup_append.mp hnodup).1).2.1
    obtain ⟨p, q, hpq⟩ := List.append_of_mem htm
    have hfree : ∀ v ∈ m, v ≠ t → (s.tags v).type ≠ .allocated := by
      intro v hv hne
      have := hm.free v hv hne
      rw [hother v hne] at this
      simp [this]
    have hnil : ∀ k : List ℕ, (∀ v ∈ k, v ∈ m ∧ v ≠ t) → allocs s.tags k = [] := by
      intro k hk
      unfold allocs
      rw [List.filter_eq_nil_iff.mpr, List.map_nil]
      intro v hv
      simp [hfree v (hk v hv).1 (hk v hv).2]
    rw [hpq, List.nodup_append, List.nodup_cons] at hmn
    rw [hpq, allocs_append, allocs_cons_of_eq (by rw [ht]), hnil p ?_, hnil q ?_]
    · simp [range, ht]
    · intro v hv
      refine ⟨by simp [hpq, hv], ?_⟩
      rintro rfl
      exact hmn.2.1.1 hv
    · intro v hv
      refine ⟨by simp [hpq, hv], ?_⟩
      rintro rfl
      exact hmn.2.2 v hv v List.mem_cons_self rfl

/-! ## The two ends of `vmem_xfree` -/

variable {a b : List Span} {g w : ℕ} {l m r : List ℕ} {addr size : ℕ}

theorem SameElse.used (h : SameElse a b g l m r s.tags s'.tags)
    (hused : ∀ sp ∈ a ++ ⟨g, l ++ m ++ r⟩ :: b, Used s.tags sp) {sp : Span}
    (hsp : sp ∈ a ∨ sp ∈ b) : Used s'.tags sp := by
  have hsame : s'.tags sp.tag = s.tags sp.tag ∧ ∀ u ∈ sp.segs, s'.tags u = s.tags u := by
    rcases hsp with hsp | hsp
    · exact ⟨h.before _ (mem_queue_of_tag hsp), fun u hu => h.before u (mem_queue_of_seg hsp hu)⟩
    · exact ⟨h.after _ (mem_queue_of_tag hsp), fun u hu => h.after u (mem_queue_of_seg hsp hu)⟩
  intro himp
  rw [hsame.1] at himp
  have hmem : sp ∈ a ++ ⟨g, l ++ m ++ r⟩ :: b := by
    rcases hsp with hsp | hsp <;> simp [hsp]
  obtain ⟨u, hu, hua⟩ := hused sp hmem himp
  exact ⟨u, hu, by rw [hsame.2 u hu]; exact hua⟩

theorem importedOf_congr {tags tags' : ℕ → VmemTag} {list : List ℕ}
    (h : ∀ g ∈ list, tags' g = tags g) : importedOf tags' list = importedOf tags list := by
  unfold importedOf
  have hfilter : list.filter (fun g => (tags' g).type = .spanImported) =
      list.filter (fun g => (tags g).type = .spanImported) := by
    apply List.filter_congr
    intro g hg
    rw [h g hg]
  rw [hfilter]
  exact map_range_congr (fun g hg => h g (List.mem_of_mem_filter hg))

theorem live_erase (hallocs : allocs s.tags m = [(addr, size)]) (hw : (s'.tags w).type = .free)
    (rest : List (ℕ × ℕ)) (h : s.live.Perm (allocs s.tags m ++ rest)) :
    (s.live.erase (addr, size)).Perm (allocs s'.tags [w] ++ rest) := by
  rw [allocs_cons_of_ne (by rw [hw]; simp)]
  rw [hallocs] at h
  have := h.erase (addr, size)
  simpa [allocs] using this

/-- **The span stays**: the merged segment goes on its free list. -/
theorem Sound.keepSpan (h : Sound (a ++ ⟨g, l ++ m ++ r⟩ :: b) s)
    (hlinked : Linked (a ++ ⟨g, l ++ [w] ++ r⟩ :: b) [] [w] s') (hbooks : SameBooks s s')
    (helse : SameElse a b g l m r s.tags s'.tags) (hok : SpanOk s'.tags ⟨g, l ++ [w] ++ r⟩)
    (hallocs : allocs s.tags m = [(addr, size)]) (hw : (s'.tags w).type = .free)
    (hused : Used s'.tags ⟨g, l ++ [w] ++ r⟩) :
    Sound (a ++ ⟨g, l ++ [w] ++ r⟩ :: b)
      { insertFree s' w with live := s.live.erase (addr, size) } := by
  have hwall : w ∈ s'.allTags := by
    rw [hlinked.allTags]
    simp
  obtain ⟨hlinked', hclob⟩ := hlinked.insertFree (by simp) hwall hw (hok.size w (by simp))
  have hbooks' := sameBooks_insertFree hclob
  have htags : (insertFree s' w).tags = s'.tags := tags_insertFree
  have helse' : SameElse a b g l m r s.tags (insertFree s' w).tags := by
    rw [htags]
    exact helse
  obtain ⟨hcore, hlist, hsame⟩ := h.core.of_sameElse (s.live.erase (addr, size)) helse' hlinked'
    (by rw [htags]; exact hok) (hclob.trans hbooks.clobbered)
    (by rw [htags]; exact live_erase hallocs hw)
  refine ⟨hcore, ?_, ?_⟩
  · show ∀ sp ∈ a ++ ⟨g, l ++ [w] ++ r⟩ :: b, Used (insertFree s' w).tags sp
    rw [htags]
    intro sp hsp
    rcases List.mem_append.mp hsp with hsp | hsp
    · exact helse.used h.used (Or.inl hsp)
    · rcases List.mem_cons.mp hsp with rfl | hsp
      · exact hused
      · exact helse.used h.used (Or.inr hsp)
  · show (insertFree s' w).imports.Perm ((insertFree s' w).releases ++
      importedOf (insertFree s' w).tags (insertFree s' w).spanlist)
    rw [hbooks'.imports, hbooks'.releases, hbooks.imports, hbooks.releases, hlist,
      importedOf_congr hsame]
    exact h.ledger

/-- **The span goes back** to the source. -/
theorem Sound.dropSpan (h : Sound (a ++ ⟨g, [] ++ m ++ []⟩ :: b) s)
    (hlinked : Linked (a ++ ⟨g, [w]⟩ :: b) [] [w] s') (hbooks : SameBooks s s')
    (helse : SameElse a b g [] m [] s.tags s'.tags)
    (himp : (s.tags g).type = .spanImported)
    (hallocs : allocs s.tags m = [(addr, size)]) :
    Sound (a ++ b) { releaseSpan s' w g with live := s.live.erase (addr, size) } := by
  have himp' : (s'.tags g).type = .spanImported := by
    rw [helse.tag]
    exact himp
  have h₁ := (hlinked.removeSeg (l := []) (r := []) (by simp)).tagFree
  have h₂ : Linked (a ++ b) [] [] (releaseSpan s' w g) := by
    have := h₁.removeSpan (Or.inr himp')
    exact ⟨this.allTags, this.spanlist, this.nodup, this.fresh, this.freelistNodup,
      this.freelist, this.hashlistNodup, this.hashlist⟩
  have htags : (releaseSpan s' w g).tags = s'.tags := rfl
  have hsame : ∀ u ∈ queue (a ++ b), s'.tags u = s.tags u := by
    intro u hu
    rw [queue_append] at hu
    rcases List.mem_append.mp hu with hu | hu
    · exact helse.before u hu
    · exact helse.after u hu
  have hspans : ∀ g' ∈ (a ++ b).map Span.tag, s'.tags g' = s.tags g' := by
    intro g' hg'
    obtain ⟨sp, hsp, rfl⟩ := List.mem_map.mp hg'
    exact hsame _ (mem_queue_of_tag hsp)
  have hg : (s.tags g).type ≠ .allocated := by
    rw [himp]
    simp
  have hold : ∀ sp ∈ a ++ b, sp ∈ a ++ ⟨g, [] ++ m ++ []⟩ :: b := by
    intro sp hsp
    rcases List.mem_append.mp hsp with hsp | hsp <;> simp [hsp]
  have hperm : s.spanlist.Perm (g :: (a ++ b).map Span.tag) := by
    rw [h.core.linked.spanlist, List.map_append, List.map_append]
    exact List.perm_middle
  refine ⟨⟨⟨h₂.allTags, h₂.spanlist, h₂.nodup, h₂.fresh, h₂.freelistNodup, h₂.freelist,
    h₂.hashlistNodup, h₂.hashlist⟩, ?_, ?_, ?_, ?_⟩, ?_, ?_⟩
  · intro sp hsp
    refine (h.core.span sp (hold sp hsp)).congr (fun u hu => hsame u ?_)
    rcases List.mem_cons.mp hu with rfl | hu
    · exact mem_queue_of_tag hsp
    · exact mem_queue_of_seg hsp hu
  · show (releaseSpan s' w g).spanlist.Pairwise (Apart s'.tags)
    have hapart := (hperm.pairwise_iff (fun hxy => Apart.symm hxy)).mp h.core.apart
    rw [h₂.spanlist]
    refine (List.pairwise_cons.mp hapart).2.imp_of_mem (fun {x y} hx hy hxy => ?_)
    rw [Apart, hspans x hx, hspans y hy]
    exact hxy
  · show (s.live.erase (addr, size)).Perm (allocs s'.tags (releaseSpan s' w g).allTags)
    have hlive := h.core.live
    rw [h.core.linked.allTags] at hlive
    have hparts := hlive.trans (helse.allocs [] hg).2
    rw [hallocs] at hparts
    have herase := hparts.erase (addr, size)
    rw [List.singleton_append, List.erase_cons_head] at herase
    rw [h₂.allTags, allocs_congr hsame, queue_append]
    simpa using herase
  · exact hbooks.clobbered.trans h.core.clobbered
  · intro sp hsp
    rcases List.mem_append.mp hsp with hsp | hsp
    · exact helse.used h.used (Or.inl hsp)
    · exact helse.used h.used (Or.inr hsp)
  · have hbook : (importedOf s.tags s.spanlist).Perm
        (range s.tags g :: importedOf s.tags ((a ++ b).map Span.tag)) := by
      have := (hperm.filter (fun g => (s.tags g).type = .spanImported)).map (range s.tags)
      simpa [importedOf, himp] using this
    show s'.imports.Perm ((((s'.tags g).start, (s'.tags g).size) :: s'.releases) ++
      importedOf s'.tags (releaseSpan s' w g).spanlist)
    rw [hbooks.imports, hbooks.releases, h₂.spanlist, importedOf_congr hspans, helse.tag]
    refine (h.ledger.trans (hbook.append_left _)).trans ?_
    exact List.perm_middle

/-- **`vmem_xfree`** of a live allocation succeeds and keeps the invariant. -/
theorem Sound.vmemXfree (h : Sound spans s) (haddr : addr ≠ 0) (hlive : (addr, size) ∈ s.live) :
    ∃ s' spans', Vmem.vmemXfree s addr size = some s' ∧
      Sound spans' { s' with live := s.live.erase (addr, size) } := by
  obtain ⟨a, b, g, l, t, r, rfl, ht⟩ := h.core.exists_of_live hlive
  have hsize : 2 ≤ size := by
    have := (h.core.span _ (show (⟨g, l ++ t :: r⟩ : Span) ∈ _ by simp)).size t (by simp)
    rwa [ht] at this
  obtain ⟨l', lf, rf, r', u, s₃, w, s₄, rfl, rfl, hleft, hprev, hprev', hright, hlinked, hbooks,
    hmerged, hlast, hhead⟩ := h.core.merge (by rw [ht])
  have hlook := h.core.lookupAlloc ht
  have hsegs : l' ++ lf ++ t :: (rf ++ r') = l' ++ (lf ++ [t] ++ rf) ++ r' := by simp
  rw [hsegs] at h
  obtain ⟨helse, hok, hallocs, x, y, htl, htr, hxy, hw⟩ :=
    h.core.merged (by simp) ht hmerged hlast hhead
  have hlinked' : Linked (a ++ ⟨g, l' ++ [w] ++ r'⟩ :: b) [] [w] s₄ := by simpa using hlinked
  have hrun : Vmem.vmemXfree s addr size =
      finishFree s₄ w ((g :: l').getLast (List.cons_ne_nil g l')) := by
    unfold freed at hprev hleft
    have hcond : ¬ (addr = 0 ∨ size = 0) := by omega
    unfold Vmem.vmemXfree
    simp only [hcond, if_false, hlook, Option.bind_eq_bind, Option.bind_some]
    have hsame : (listRemove s t).tags t = s.tags t := rfl
    rw [hsame, hprev]
    simp only [Option.bind_some, hleft, hprev', hright]
  rw [hrun, finishFree]
  have hwsize : (s₄.tags w).size = y - x := congrArg Prod.snd hw
  -- the segments left and right of the merged one are allocated
  have halloc : ∀ v ∈ l' ++ r', (s.tags v).type = .free ∨ (s.tags v).type = .allocated := by
    intro v hv
    refine (h.core.span ⟨g, l' ++ (lf ++ [t] ++ rf) ++ r'⟩ (by simp)).seg v ?_
    rcases List.mem_append.mp hv with hv | hv <;> simp [hv]
  by_cases hrel : (s₄.tags ((g :: l').getLast (List.cons_ne_nil g l'))).type = .spanImported ∧
      (s₄.tags w).size = (s₄.tags ((g :: l').getLast (List.cons_ne_nil g l'))).size
  · rw [if_pos hrel]
    -- nothing but the merged segment is left
    have hl' : l' = [] := by
      rcases List.eq_nil_or_concat l' with hnil | ⟨k, v, hkv⟩
      · exact hnil
      · have hlast' : (g :: l').getLast (List.cons_ne_nil g l') = v := by simp [hkv]
        have hvl : v ∈ l' := by simp [hkv]
        rw [hlast', helse.left v hvl] at hrel
        rcases halloc v (List.mem_append_left _ hvl) with hv | hv <;>
          simp [hv] at hrel
    subst hl'
    simp only [List.getLast_singleton, helse.tag, hwsize] at hrel
    have hx : (s.tags g).start = x := htl
    have hr' : r' = [] := by
      rcases r' with - | ⟨v, q⟩
      · rfl
      · have hv := htr.mem (List.mem_map_of_mem (f := range s.tags) List.mem_cons_self)
        have hvs := (h.core.span ⟨g, [] ++ (lf ++ [t] ++ rf) ++ v :: q⟩ (by simp)).size v
          (by simp)
        simp only [range] at hv
        omega
    subst hr'
    refine ⟨releaseSpan s₄ w g, a ++ b, ?_, ?_⟩
    · rw [hlinked.nextOf_eq]
      rcases b with - | ⟨sp, b⟩
      · rfl
      · have hsp := (h.core.span sp (by simp)).type
        have htag := helse.after sp.tag (by simp)
        simp only [List.nil_append, queue_cons, List.head?_cons, htag]
        rw [if_pos hsp.symm]
        rfl
    · exact h.dropSpan hlinked hbooks helse hrel.1 hallocs
  · rw [if_neg hrel]
    refine ⟨insertFree s₄ w, a ++ ⟨g, l' ++ [w] ++ r'⟩ :: b, rfl, ?_⟩
    refine h.keepSpan hlinked' hbooks helse hok hallocs hmerged.type ?_
    intro himp
    have hmem : ∀ v ∈ l' ++ r', (s.tags v).type ≠ .free →
        ∃ u ∈ l' ++ [w] ++ r', (s₄.tags u).type = .allocated := by
      intro v hv hfree
      have hsame : s₄.tags v = s.tags v := by
        rcases List.mem_append.mp hv with hv | hv
        · exact helse.left v hv
        · exact helse.right v hv
      refine ⟨v, ?_, ?_⟩
      · rcases List.mem_append.mp hv with hv | hv <;> simp [hv]
      · rw [hsame]
        exact (halloc v hv).resolve_left hfree
    rcases List.eq_nil_or_concat l' with rfl | ⟨k, v, rfl⟩
    · rcases r' with - | ⟨v, q⟩
      · -- then the span would have gone back
        refine absurd ⟨himp, ?_⟩ hrel
        have hx : (s.tags g).start = x := htl
        have hy : y = (s.tags g).start + (s.tags g).size := htr
        simp only [List.getLast_singleton, helse.tag, hwsize]
        omega
      · exact hmem v (by simp) (hhead v (by simp))
    · exact hmem v (by simp) (hlast v (by simp))

end Vmem
