/-
# The invariant of an arena

The segments of every span tile it, neighbours are merged, the lists hold what they should, and
imported spans go back to the source when their last allocation is freed.  This holds as long as
the spans an arena is given do not overlap or wrap around, and no allocation leaves a free
segment of a single byte: such a segment belongs on the list before the first one.
-/
import YakKernel.VmemSegments

namespace Vmem

open SegmentQueue

/-! ## The search -/

variable {s s' : Arena} {fit : VmemTag → Option ℕ} {t : ℕ}

theorem foldl_betterFit {list : List ℕ} {init : Option (ℕ × ℕ)} :
    (∀ best at_, list.foldl (betterFit s fit) init = some (best, at_) →
      init = some (best, at_) ∨ (best ∈ list ∧ fit (s.tags best) = some at_)) ∧
    (list.foldl (betterFit s fit) init = none →
      init = none ∧ ∀ elm ∈ list, fit (s.tags elm) = none) := by
  induction list generalizing init with
  | nil => exact ⟨fun _ _ h => Or.inl h, fun h => ⟨h, by simp⟩⟩
  | cons elm list ih =>
    rw [List.foldl_cons]
    cases hfit : fit (s.tags elm) with
    | none =>
      have hround : betterFit s fit init elm = init := by
        rw [betterFit, hfit]
      rw [hround]
      refine ⟨fun best at_ h => ?_, fun h => ?_⟩
      · rcases ih.1 best at_ h with h | ⟨hm, h⟩
        · exact Or.inl h
        · exact Or.inr ⟨List.mem_cons_of_mem elm hm, h⟩
      · obtain ⟨hinit, hall⟩ := ih.2 h
        refine ⟨hinit, fun e he => ?_⟩
        rcases List.mem_cons.mp he with rfl | he
        · exact hfit
        · exact hall e he
    | some cur =>
      have hround : betterFit s fit init elm = init ∨
          betterFit s fit init elm = some (elm, cur) := by
        rw [betterFit, hfit]
        cases init with
        | none => exact Or.inr rfl
        | some b =>
          simp only []
          split
          · exact Or.inr rfl
          · exact Or.inl rfl
      have hsome : betterFit s fit init elm ≠ none := by
        rw [betterFit, hfit]
        cases init with
        | none => simp
        | some b =>
          simp only []
          split <;> simp
      refine ⟨fun best at_ h => ?_, fun h => ?_⟩
      · rcases ih.1 best at_ h with h | ⟨hm, h⟩
        · rcases hround with hr | hr
          · rw [hr] at h
            exact Or.inl h
          · rw [hr, Option.some.injEq, Prod.mk.injEq] at h
            obtain ⟨rfl, rfl⟩ := h
            exact Or.inr ⟨List.mem_cons_self, hfit⟩
        · exact Or.inr ⟨List.mem_cons_of_mem elm hm, h⟩
      · exact absurd (ih.2 h).1 hsome

theorem searchList_eq_some {instantfit : Bool} {list : List ℕ} {best at_ : ℕ}
    (h : searchList s fit instantfit list = some (best, at_)) :
    best ∈ list ∧ fit (s.tags best) = some at_ := by
  unfold searchList at h
  split at h
  · obtain ⟨elm, hm, he⟩ := List.exists_of_findSome?_eq_some h
    obtain ⟨cur, hcur, he⟩ := Option.map_eq_some_iff.mp he
    rw [Prod.mk.injEq] at he
    obtain ⟨rfl, rfl⟩ := he
    exact ⟨hm, hcur⟩
  · rcases foldl_betterFit.1 best at_ h with h | h
    · cases h
    · exact h

theorem searchList_eq_none {instantfit : Bool} {list : List ℕ}
    (h : searchList s fit instantfit list = none) : ∀ elm ∈ list, fit (s.tags elm) = none := by
  unfold searchList at h
  split at h
  · intro elm hm
    have := List.findSome?_eq_none_iff.mp h elm hm
    exact Option.map_eq_none_iff.mp this
  · exact (foldl_betterFit.2 h).2

variable {size minaddr maxaddr : ℕ} {flags : Flags}

theorem search_eq_some {best at_ : ℕ} (h : search s size minaddr maxaddr flags = some (best, at_)) :
    ∃ i, freelistIdx size - 1 ≤ i ∧ i < freelistCount ∧ best ∈ s.freelists i ∧
      fitStart size minaddr maxaddr (s.tags best) = some at_ := by
  obtain ⟨i, hmem, hi⟩ := List.exists_of_findSome?_eq_some h
  rw [List.mem_range'_1] at hmem
  exact ⟨i, by omega, by omega, searchList_eq_some hi⟩

/-- When the search finds nothing, nothing on the lists from the size's class on fits. -/
theorem search_eq_none (h : search s size minaddr maxaddr flags = none) {i : ℕ}
    (hi : freelistIdx size - 1 ≤ i) (hlt : i < freelistCount) {elm : ℕ}
    (helm : elm ∈ s.freelists i) : fitStart size minaddr maxaddr (s.tags elm) = none := by
  refine searchList_eq_none (List.findSome?_eq_none_iff.mp h i ?_) elm helm
  rw [List.mem_range'_1]
  omega

/-- **A segment that fits** holds the allocation. -/
theorem fitStart_spec {tag : VmemTag} {at_ : ℕ} (hbound : tag.start + tag.size < 2 ^ 64)
    (hmin : minaddr < 2 ^ 64) (hmax : maxaddr < 2 ^ 64)
    (hrange : maxaddr = 0 ∨ minaddr ≤ maxaddr ∨ minaddr + size < 2 ^ 64)
    (h : fitStart size minaddr maxaddr tag = some at_)
    (hassert : maxaddr = 0 ∨ wadd at_ size ≤ maxaddr) :
    tag.start ≤ at_ ∧ at_ + size ≤ tag.start + tag.size := by
  unfold fitStart at h
  rw [wadd_of_lt hbound] at h
  split at h
  · cases h
  · rename_i hlow
    split at h
    · cases h
    · rename_i hhigh
      by_cases hstart : minaddr ≠ 0 ∧ tag.start < minaddr
      · have hend : minaddr < tag.start + tag.size := by
          by_contra hle
          exact hlow ⟨hstart.1, by omega⟩
        have hsub : wsub tag.size (wsub minaddr tag.start) =
            tag.start + tag.size - minaddr := by
          rw [wsub_of_le (by omega) hmin, wsub_of_le (by omega) (by omega)]
          omega
        simp only [hstart, ne_eq, not_false_eq_true, and_self, if_true, hsub] at h
        rw [wadd_of_lt (by omega)] at h
        split at h
        · rename_i hcut
          split at h
          · cases h
          · rename_i hfit
            cases h
            by_cases hmm : minaddr ≤ maxaddr
            · rw [wsub_of_le hmm hmax] at hfit
              omega
            · -- the bounds are in the wrong order: the assertion fails
              have hw := wadd_of_lt ((hrange.resolve_left hcut.1).resolve_left hmm)
              have := hassert.resolve_left hcut.1
              omega
        · split at h
          · cases h
          · cases h
            omega
      · simp only [hstart, if_false] at h
        rw [wadd_of_lt hbound] at h
        split at h
        · rename_i hcut
          have hlt : tag.start < maxaddr := by
            by_contra hle
            exact hhigh ⟨hcut.1, by omega⟩
          rw [wsub_of_le hlt.le hmax] at h
          split at h
          · cases h
          · cases h
            omega
        · split at h
          · cases h
          · cases h
            omega

theorem fitStart_unbounded {tag : VmemTag} :
    fitStart size 0 0 tag = if tag.size < size then none else some tag.start := by
  simp [fitStart]

/-! ## The invariant -/

/-- Two spans do not overlap. -/
def Apart (tags : ℕ → VmemTag) (g g' : ℕ) : Prop :=
  (tags g).start + (tags g).size ≤ (tags g').start ∨
    (tags g').start + (tags g').size ≤ (tags g).start

/-- The imported ones among some spans. -/
def importedOf (tags : ℕ → VmemTag) (spanlist : List ℕ) : List (ℕ × ℕ) :=
  (spanlist.filter (fun g => (tags g).type = .spanImported)).map (range tags)

/-- The invariant of an arena without the books on imports, while some tags are in hand. -/
structure Core (spans : List Span) (hand : List ℕ) (s : Arena) : Prop where
  linked : Linked spans hand [] s
  span : ∀ sp ∈ spans, SpanOk s.tags sp
  apart : s.spanlist.Pairwise (Apart s.tags)
  live : s.live.Perm (allocs s.tags s.allTags)
  clobbered : s.clobbered = false

/-- An imported span has an allocated segment. -/
def Used (tags : ℕ → VmemTag) (sp : Span) : Prop :=
  (tags sp.tag).type = .spanImported → ∃ t ∈ sp.segs, (tags t).type = .allocated

/-- **The invariant** between two calls. -/
structure Sound (spans : List Span) (s : Arena) : Prop where
  core : Core spans [] s
  used : ∀ sp ∈ spans, Used s.tags sp
  ledger : s.imports.Perm (s.releases ++ importedOf s.tags s.spanlist)

variable {spans : List Span} {hand : List ℕ}

theorem tagAlloc_frame {populate : Bool} (h : tagAlloc s populate = some (t, s')) :
    s'.tags = s.tags ∧ s'.freelists = s.freelists ∧ s'.spanlist = s.spanlist ∧
      s'.allTags = s.allTags ∧ SameBooks s s' := by
  unfold tagAlloc at h
  have hr : ∀ s₁ : Arena, s₁ = (if populate then s else tagRefill s) →
      s₁.tags = s.tags ∧ s₁.freelists = s.freelists ∧ s₁.spanlist = s.spanlist ∧
        s₁.allTags = s.allTags ∧ SameBooks s s₁ := by
    rintro s₁ rfl
    split
    · exact ⟨rfl, rfl, rfl, rfl, SameBooks.rfl⟩
    · exact ⟨rfl, rfl, rfl, rfl, ⟨rfl, rfl, rfl, rfl⟩⟩
  generalize hs₁ : (if populate then s else tagRefill s) = s₁ at h
  obtain ⟨htags, hfree, hspan, hall, hbooks⟩ := hr s₁ hs₁.symm
  cases hf : s₁.freetags with
  | nil => simp [hf] at h
  | cons u us =>
    simp only [hf, Option.some.injEq, Prod.mk.injEq] at h
    obtain ⟨-, rfl⟩ := h
    exact ⟨htags, hfree, hspan, hall,
      ⟨hbooks.imports, hbooks.releases, hbooks.live, hbooks.clobbered⟩⟩

theorem Core.tagAlloc {populate : Bool} (h : Core spans hand s)
    (hs : Vmem.tagAlloc s populate = some (t, s')) : Core spans (t :: hand) s' := by
  obtain ⟨htags, -, hspan, hall, hbooks⟩ := tagAlloc_frame hs
  refine ⟨h.linked.tagAlloc hs, ?_, ?_, ?_, ?_⟩
  · rw [htags]
    exact h.span
  · rw [htags, hspan]
    exact h.apart
  · rw [htags, hall, hbooks.live]
    exact h.live
  · rw [hbooks.clobbered]
    exact h.clobbered

theorem Core.type_cases (h : Core spans hand s) (ht : t ∈ s.allTags) :
    (∃ sp ∈ spans, t ∈ sp.segs) ∨
      ((s.tags t).type = .span ∨ (s.tags t).type = .spanImported) := by
  rw [h.linked.allTags] at ht
  obtain ⟨sp, hsp, rfl | ht⟩ := mem_queue ht
  · exact Or.inr (h.span sp hsp).type
  · exact Or.inl ⟨sp, hsp, ht⟩

/-! ## Adding a span -/

/-- The span from `addr` on can be added: it is not empty, does not wrap around, and overlaps no
other span. -/
def Fits (s : Arena) (addr size : ℕ) : Prop :=
  0 < size ∧ addr + size < 2 ^ 64 ∧
    ∀ g ∈ s.spanlist, addr + size ≤ (s.tags g).start ∨ (s.tags g).start + (s.tags g).size ≤ addr

/-- **Where `vmem_add_locked` puts a span**: between two others, in the list of the spans and in
the queue. -/
theorem insertSpan_spec (g : ℕ) (p : ℕ → Bool) {after : Option ℕ}
    (hafter : after = (s.spanlist.takeWhile p).getLast? ∨ after = none)
    (hlist : s.spanlist = spans.map Span.tag) (hall : s.allTags = queue spans)
    (hnodup : (queue spans).Nodup) :
    ∃ a b, spans = a ++ b ∧ insertSpan s after g = { s with
      spanlist := a.map Span.tag ++ g :: b.map Span.tag
      allTags := queue a ++ g :: queue b } := by
  have hfirst : ∃ a b, spans = a ++ b ∧ insertSpan s none g = { s with
      spanlist := a.map Span.tag ++ g :: b.map Span.tag
      allTags := queue a ++ g :: queue b } := by
    refine ⟨[], spans, rfl, ?_⟩
    simp only [insertSpan, hlist, hall, List.map_nil, List.nil_append, queue_nil]
  rcases hafter with rfl | rfl
  · rcases List.eq_nil_or_concat (spans.takeWhile (p ∘ Span.tag)) with hnil | ⟨a, x, hax⟩
    · rw [hlist, List.takeWhile_map, hnil]
      exact hfirst
    · rw [List.concat_eq_append] at hax
      obtain ⟨b, hb⟩ : ∃ b, spans = a ++ [x] ++ b :=
        ⟨spans.dropWhile (p ∘ Span.tag), by rw [← hax, List.takeWhile_append_dropWhile]⟩
      have hxa : x.tag ∉ a.map Span.tag := by
        intro hm
        obtain ⟨sp, hsp, he⟩ := List.mem_map.mp hm
        rw [hb, queue_append, queue_append, List.append_assoc] at hnodup
        refine (List.nodup_append.mp hnodup).2.2 sp.tag (mem_queue_of_tag hsp) x.tag ?_ he
        simp
      have hlast : (s.spanlist.takeWhile p).getLast? = some x.tag := by
        rw [hlist, List.takeWhile_map, hax]
        simp
      have hlist' : s.spanlist = a.map Span.tag ++ x.tag :: b.map Span.tag := by
        rw [hlist, hb]
        simp
      refine ⟨a ++ [x], b, hb, ?_⟩
      rw [hlast, insertSpan, hlist', insertAfter_append hxa, nextOf_append hxa, hall]
      cases b with
      | nil =>
        simp only [List.map_nil, List.head?_nil, hb]
        simp
      | cons y b =>
        have hya : y.tag ∉ queue (a ++ [x]) := by
          intro hm
          rw [hb, queue_append] at hnodup
          refine (List.nodup_append.mp hnodup).2.2 y.tag hm y.tag ?_ rfl
          simp
        have hq : queue spans = queue (a ++ [x]) ++ y.tag :: (y.segs ++ queue b) := by
          rw [hb, queue_append]
          simp
        simp only [List.map_cons, List.head?_cons]
        rw [hq, insertBefore_append hya]
        simp
  · exact hfirst

theorem Linked.addSpan {a b : List Span} {g f : ℕ}
    (h : Linked (a ++ b) (g :: f :: hand) [] s)
    (hg : (s.tags g).type = .span ∨ (s.tags g).type = .spanImported)
    (hf : (s.tags f).type = .free) (hsize : 2 ≤ (s.tags f).size) (hs' : s' = { s with
      spanlist := a.map Span.tag ++ g :: b.map Span.tag
      allTags := queue a ++ g :: queue b }) :
    Linked (a ++ ⟨g, [f]⟩ :: b) hand []
        (Vmem.insertFree { s' with allTags := SegmentQueue.insertAfter g f s'.allTags } f) ∧
      (Vmem.insertFree { s' with allTags := SegmentQueue.insertAfter g f s'.allTags } f).clobbered
        = s.clobbered := by
  have hga : g ∉ queue a := by
    intro hm
    have hnot := h.hand_notMem List.mem_cons_self
    rw [h.allTags, queue_append] at hnot
    exact hnot (List.mem_append_left _ hm)
  have h₁ : Linked (a ++ ⟨g, []⟩ :: b) (f :: hand) [g] s' := by
    subst hs'
    exact h.enqueue (by simp) (by simp) (by simp)
  have htags : s'.tags = s.tags := by rw [hs']
  have hall : SegmentQueue.insertAfter g f s'.allTags = queue a ++ g :: f :: queue b := by
    rw [hs']
    exact insertAfter_append hga
  have h₂ : Linked (a ++ ⟨g, [f]⟩ :: b) hand [f]
      { s' with allTags := SegmentQueue.insertAfter g f s'.allTags } := by
    refine (h₁.span (by rw [htags]; exact hg)).enqueue ?_ ?_ ?_
    · rw [hall]
      simp
    · have : queue (a ++ ⟨g, [f]⟩ :: b) = (queue a ++ [g]) ++ f :: queue b := by simp
      rw [this]
      refine List.perm_middle.trans ?_
      simp
    · rw [hs']
      simp
  obtain ⟨h₃, hclob⟩ := h₂.insertFree (by simp)
    (by rw [h₂.allTags]; simp) (by rw [htags]; exact hf) (by rw [htags]; exact hsize)
  refine ⟨h₃, hclob.trans ?_⟩
  rw [hs']

/-- **`vmem_add_locked`** adds a span with one free segment. -/
theorem Core.vmemAddLocked {addr : ℕ} {spanType : TagType} {populate : Bool}
    (h : Core spans hand s) (hfit : Fits s addr size) (hsize : 2 ≤ size)
    (htype : spanType = .span ∨ spanType = .spanImported)
    (hs : Vmem.vmemAddLocked s addr size spanType populate = some s') :
    ∃ a b g f, spans = a ++ b ∧ Core (a ++ ⟨g, [f]⟩ :: b) hand s' ∧ SameBooks s s' ∧
      (∀ u ∈ s.allTags, s'.tags u = s.tags u) ∧ s'.tags g = ⟨spanType, addr, size⟩ ∧
      s'.tags f = ⟨.free, addr, size⟩ := by
  unfold Vmem.vmemAddLocked at hs
  simp only [Option.bind_eq_bind, Option.bind_eq_some_iff, Prod.exists, Option.pure_def,
    Option.some.injEq] at hs
  obtain ⟨g, s₁, hg, f, s₂, hf, hs⟩ := hs
  obtain ⟨htags₁, -, hspan₁, hall₁, hbooks₁⟩ := tagAlloc_frame hg
  obtain ⟨htags₂, -, hspan₂, hall₂, hbooks₂⟩ := tagAlloc_frame hf
  have h₂ := (h.tagAlloc hg).tagAlloc hf
  have hfg : f ≠ g := by
    have := (List.nodup_append.mp (List.nodup_append.mp h₂.linked.nodup).1).1
    simp at this
    exact this.1.1
  have hgall : g ∉ s.allTags := by
    have := h₂.linked.hand_notMem (List.mem_cons_of_mem f List.mem_cons_self)
    rwa [hall₂, hall₁] at this
  have hfall : f ∉ s.allTags := by
    have := h₂.linked.hand_notMem List.mem_cons_self
    rwa [hall₂, hall₁] at this
  -- both tags are written before they enter the queue
  have h₃ := ((h₂.linked.perm (List.Perm.swap f g hand)).setTag ⟨spanType, addr, size⟩
    (Or.inl List.mem_cons_self)).setTag (t := f) ⟨.free, addr, size⟩
    (Or.inl (List.mem_cons_of_mem g List.mem_cons_self))
  generalize hs₃ : setTag (setTag s₂ g ⟨spanType, addr, size⟩) f ⟨.free, addr, size⟩ = s₃
    at hs h₃
  have htagsG : s₃.tags g = ⟨spanType, addr, size⟩ := by
    rw [← hs₃]
    simp [setTag, hfg.symm]
  have htagsF : s₃.tags f = ⟨.free, addr, size⟩ := by
    rw [← hs₃]
    simp [setTag]
  have htagsO : ∀ u ∈ s.allTags, s₃.tags u = s.tags u := by
    intro u hu
    have hug : u ≠ g := fun he => hgall (he ▸ hu)
    have huf : u ≠ f := fun he => hfall (he ▸ hu)
    rw [← hs₃, ← htags₁, ← htags₂]
    simp [setTag, hug, huf]
  have hbooks₃ : SameBooks s s₃ := by
    have := hbooks₁.trans hbooks₂
    rw [← hs₃]
    exact ⟨this.imports, this.releases, this.live, this.clobbered⟩
  have hlist₃ : s₃.spanlist = s₂.spanlist := by
    rw [← hs₃]
    rfl
  have hafter : (if spanType ≠ .spanImported then
      (s₂.spanlist.takeWhile (fun u => decide ((s₂.tags u).start ≤ addr))).getLast? else none) =
        (s₃.spanlist.takeWhile (fun u => decide ((s₂.tags u).start ≤ addr))).getLast? ∨
      (if spanType ≠ .spanImported then
      (s₂.spanlist.takeWhile (fun u => decide ((s₂.tags u).start ≤ addr))).getLast? else none) =
        none := by
    rw [hlist₃]
    split
    · exact Or.inl rfl
    · exact Or.inr rfl
  obtain ⟨a, b, rfl, hins⟩ := insertSpan_spec g _ hafter h₃.spanlist h₃.allTags h₃.nodup_queue
  rw [hins] at hs
  obtain ⟨h₄, hclob⟩ := h₃.addSpan (by rw [htagsG]; exact htype) (by rw [htagsF])
    (by rw [htagsF]; exact hsize) rfl
  have hbooks : SameBooks s s' := by
    have hb := sameBooks_insertFree hclob
    rw [← hs]
    exact hbooks₃.trans ⟨hb.imports, hb.releases, hb.live, hb.clobbered⟩
  have htags : s'.tags = s₃.tags := by
    rw [← hs, tags_insertFree]
  have hspanlist : s'.spanlist = a.map Span.tag ++ g :: b.map Span.tag := by
    rw [← hs, spanlist_insertFree]
  rw [hs] at h₄
  have hall : s'.allTags = queue a ++ g :: f :: queue b := by
    rw [h₄.allTags]
    simp
  rw [← htags] at htagsO htagsG htagsF
  have hqueue : ∀ u ∈ queue (a ++ b), s'.tags u = s.tags u := by
    rw [← h.linked.allTags]
    exact htagsO
  refine ⟨a, b, g, f, rfl, ⟨h₄, ?_, ?_, ?_, ?_⟩, hbooks, htagsO, htagsG, htagsF⟩
  · intro sp hsp
    by_cases hnew : sp = ⟨g, [f]⟩
    · subst hnew
      refine ⟨?_, ?_, ?_, ?_, List.isChain_singleton f, ?_⟩
      · rw [htagsG]
        exact htype
      · simp [htagsF]
      · simpa [htagsF] using hsize
      · simp [range, htagsF, htagsG]
      · rw [htagsG]
        exact hfit.2.1
    · have hold : sp ∈ a ++ b := by
        simp only [List.mem_append, List.mem_cons] at hsp ⊢
        tauto
      refine (h.span sp hold).congr (fun u hu => hqueue u ?_)
      rcases List.mem_cons.mp hu with rfl | hu
      · exact mem_queue_of_tag hold
      · exact mem_queue_of_seg hold hu
  · have hspans : ∀ g' ∈ s.spanlist, s'.tags g' = s.tags g' := by
      intro g' hg'
      rw [h.linked.spanlist] at hg'
      obtain ⟨sp, hsp, rfl⟩ := List.mem_map.mp hg'
      exact hqueue _ (mem_queue_of_tag hsp)
    have hperm : s'.spanlist.Perm (g :: s.spanlist) := by
      rw [hspanlist, h.linked.spanlist, List.map_append]
      exact List.perm_middle
    have hsymm : ∀ x y, Apart s'.tags x y → Apart s'.tags y x := fun _ _ hxy => hxy.symm
    refine (hperm.pairwise_iff (hsymm _ _)).mpr (List.pairwise_cons.mpr ⟨?_, ?_⟩)
    · intro g' hg'
      rw [Apart, htagsG, hspans g' hg']
      exact hfit.2.2 g' hg'
    · refine h.apart.imp_of_mem (fun {x y} hx hy hxy => ?_)
      rw [Apart, hspans x hx, hspans y hy]
      exact hxy
  · have hg : (s'.tags g).type ≠ .allocated := by
      rw [htagsG]
      rcases htype with rfl | rfl <;> simp
    have hf : (s'.tags f).type ≠ .allocated := by
      rw [htagsF]
      simp
    have hlive := h.live
    rw [hbooks.live, hall]
    rw [h.linked.allTags, ← allocs_congr hqueue, queue_append, allocs_append] at hlive
    rw [allocs_append, allocs_cons_of_ne hg, allocs_cons_of_ne hf]
    exact hlive
  · rw [hbooks.clobbered]
    exact h.clobbered

/-! ## Allocating -/

theorem exists_split {sp : Span} (hsp : sp ∈ spans) (ht : t ∈ sp.segs) :
    ∃ a b g l r, spans = a ++ ⟨g, l ++ t :: r⟩ :: b ∧ sp = ⟨g, l ++ t :: r⟩ := by
  obtain ⟨a, b, rfl⟩ := List.append_of_mem hsp
  obtain ⟨l, r, hlr⟩ := List.append_of_mem ht
  refine ⟨a, b, sp.tag, l, r, ?_, ?_⟩
  · rw [← hlr]
  · rw [← hlr]

theorem Core.exists_span_of_free (h : Core spans hand s) {i : ℕ} (ht : t ∈ s.freelists i) :
    (s.tags t).type = .free ∧ ∃ sp ∈ spans, t ∈ sp.segs := by
  obtain ⟨hall, -, htype, -⟩ := (h.linked.freelist i t).mp ht
  refine ⟨htype, ?_⟩
  rcases h.type_cases hall with hsp | hspan
  · exact hsp
  · rcases hspan with hspan | hspan <;> rw [htype] at hspan <;> cases hspan

variable {left right best at_ : ℕ}

theorem Core.of_sameElse {a b : List Span} {g : ℕ} {l m m' r : List ℕ} (live : List (ℕ × ℕ))
    (h : Core (a ++ ⟨g, l ++ m ++ r⟩ :: b) hand s)
    (helse : SameElse a b g l m r s.tags s'.tags)
    (hlinked : Linked (a ++ ⟨g, l ++ m' ++ r⟩ :: b) [] [] s')
    (hspan : SpanOk s'.tags ⟨g, l ++ m' ++ r⟩) (hclob : s'.clobbered = s.clobbered)
    (hlive : ∀ rest, s.live.Perm (allocs s.tags m ++ rest) →
      live.Perm (allocs s'.tags m' ++ rest)) :
    Core (a ++ ⟨g, l ++ m' ++ r⟩ :: b) [] { s' with live := live } ∧
      s'.spanlist = s.spanlist ∧ (∀ g' ∈ s.spanlist, s'.tags g' = s.tags g') := by
  have hlist : s'.spanlist = s.spanlist := by
    rw [hlinked.spanlist, h.linked.spanlist]
    simp
  have hsame : ∀ g' ∈ s.spanlist, s'.tags g' = s.tags g' := by
    intro g' hg'
    rw [h.linked.spanlist] at hg'
    obtain ⟨sp, hsp, rfl⟩ := List.mem_map.mp hg'
    rcases List.mem_append.mp hsp with hsp | hsp
    · exact helse.before _ (mem_queue_of_tag hsp)
    · rcases List.mem_cons.mp hsp with rfl | hsp
      · exact helse.tag
      · exact helse.after _ (mem_queue_of_tag hsp)
  have hg : (s.tags g).type ≠ .allocated := by
    rcases (h.span ⟨g, l ++ m ++ r⟩ (by simp)).type with hg | hg <;> simp [hg]
  refine ⟨⟨⟨hlinked.allTags, hlinked.spanlist, hlinked.nodup, hlinked.fresh,
    hlinked.freelistNodup, hlinked.freelist, hlinked.hashlistNodup, hlinked.hashlist⟩,
    helse.spans h.span hspan, ?_, ?_, hclob.trans h.clobbered⟩, hlist, hsame⟩
  · show s'.spanlist.Pairwise (Apart s'.tags)
    rw [hlist]
    refine h.apart.imp_of_mem (fun {x y} hx hy hxy => ?_)
    rw [Apart, hsame x hx, hsame y hy]
    exact hxy
  · have hallocs := helse.allocs m' hg
    have hlive' := h.live
    rw [h.linked.allTags] at hlive'
    show live.Perm (allocs s'.tags s'.allTags)
    rw [hlinked.allTags]
    exact (hlive _ (hlive'.trans hallocs.2)).trans hallocs.1.symm

/-- **Cutting an allocation** out of the segment that was found. -/
theorem Core.takeSeg {res : Option ℕ} (h : Core spans [left, right] s)
    (hbest : ∃ i, best ∈ s.freelists i ∧
      fitStart size minaddr maxaddr (s.tags best) = some at_)
    (hsize : 2 ≤ size) (hmin : minaddr < 2 ^ 64) (hmax : maxaddr < 2 ^ 64)
    (hrange : maxaddr = 0 ∨ minaddr ≤ maxaddr ∨ minaddr + size < 2 ^ 64)
    (hbefore : at_ - (s.tags best).start ≠ 1)
    (hafter : (s.tags best).start + (s.tags best).size - (at_ + size) ≠ 1)
    (hs : Vmem.takeSeg s size minaddr maxaddr left right best at_ = some (res, s')) :
    res = some at_ ∧ ∃ spans', Core spans' [] { s' with live := (at_, size) :: s'.live } ∧
      SameBooks s s' ∧ s'.spanlist = s.spanlist ∧
      (∀ g ∈ s.spanlist, s'.tags g = s.tags g) ∧
      ((∀ sp ∈ spans, best ∉ sp.segs → Used s.tags sp) → ∀ sp ∈ spans', Used s'.tags sp) := by
  obtain ⟨i, hi, hfit⟩ := hbest
  obtain ⟨hfree, sp, hsp, hbsp⟩ := h.exists_span_of_free hi
  obtain ⟨a, b, g, l, r, rfl, rfl⟩ := exists_split hsp hbsp
  have hspan := h.span _ hsp
  have hend := (hspan.mem_range hbsp).2
  have hbound := hspan.bound
  unfold Vmem.takeSeg at hs
  split at hs
  · rename_i hassert
    obtain ⟨s₁, hs₁, hres⟩ := Option.map_eq_some_iff.mp hs
    rw [Prod.mk.injEq] at hres
    obtain ⟨rfl, rfl⟩ := hres
    obtain ⟨hle, hfits⟩ :=
      fitStart_spec (by omega) hmin hmax hrange hfit hassert.2.2
    obtain ⟨s₂, m', hsplit, hlinked, hbooks, hok, hmem, helse, hallocs⟩ :=
      splitSeg_spec h.linked h.span hfree hsize hle hfits hbefore hafter
    rw [hsplit, Option.some.injEq] at hs₁
    subst hs₁
    have h' : Core (a ++ ⟨g, l ++ [best] ++ r⟩ :: b) [left, right] s := by simpa using h
    have hlive : ∀ rest, s.live.Perm (allocs s.tags [best] ++ rest) →
        ((at_, size) :: s₂.live).Perm (allocs s₂.tags m' ++ rest) := by
      intro rest hrest
      rw [allocs_cons_of_ne (by rw [hfree]; simp)] at hrest
      rw [hallocs, hbooks.live]
      exact hrest.cons _
    obtain ⟨hcore, hlist, hsame⟩ :=
      h'.of_sameElse ((at_, size) :: s₂.live) helse hlinked hok hbooks.clobbered hlive
    refine ⟨rfl, _, hcore, hbooks, hlist, hsame, ?_⟩
    intro hused sp hsp' himp
    have hnodup := h.linked.nodup_queue
    rw [queue_split, List.nodup_append] at hnodup
    rcases List.mem_append.mp hsp' with hsp' | hsp'
    · have hsegs : ∀ u ∈ sp.segs, s₂.tags u = s.tags u :=
        fun u hu => helse.before u (mem_queue_of_seg hsp' hu)
      rw [helse.before _ (mem_queue_of_tag hsp')] at himp
      have hnot : best ∉ sp.segs := fun hb => hnodup.2.2 best
        (List.mem_append_left _ (mem_queue_of_seg hsp' hb)) best List.mem_cons_self rfl
      obtain ⟨u, hu, hua⟩ := hused sp (by simp [hsp']) hnot himp
      exact ⟨u, hu, by rw [hsegs u hu]; exact hua⟩
    · rcases List.mem_cons.mp hsp' with rfl | hsp'
      · -- the span of the allocation itself
        have hne : allocs s₂.tags m' ≠ [] := by
          rw [hallocs]
          simp
        unfold allocs at hne
        obtain ⟨p, hp⟩ := List.exists_mem_of_ne_nil _ hne
        obtain ⟨u, hu, -⟩ := List.mem_map.mp hp
        obtain ⟨hum, hua⟩ := List.mem_filter.mp hu
        exact ⟨u, by simp [hum], of_decide_eq_true hua⟩
      · have hsegs : ∀ u ∈ sp.segs, s₂.tags u = s.tags u :=
          fun u hu => helse.after u (mem_queue_of_seg hsp' hu)
        rw [helse.after _ (mem_queue_of_tag hsp')] at himp
        have hnot : best ∉ sp.segs := fun hb => (List.nodup_cons.mp hnodup.2.1).1
          (List.mem_append_right _ (mem_queue_of_seg hsp' hb))
        obtain ⟨u, hu, hua⟩ := hused sp (by simp [hsp']) hnot himp
        exact ⟨u, hu, by rw [hsegs u hu]; exact hua⟩
  · cases hs

end Vmem
