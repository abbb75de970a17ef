/-
# Splitting and merging segments

What the tags of an arena say about its spans, and what `split_seg` and the two merges of
`vmem_xfree` do to the segments of one span.
-/
import YakKernel.VmemLists

namespace Vmem

open SegmentQueue

/-! ## Spans that are tiled -/

/-- The start and the size of a segment. -/
def range (tags : ℕ → VmemTag) (t : ℕ) : ℕ × ℕ := ((tags t).start, (tags t).size)

/-- Not both of two neighbours are free. -/
def NotBothFree (tags : ℕ → VmemTag) (t u : ℕ) : Prop :=
  ¬ ((tags t).type = .free ∧ (tags u).type = .free)

/-- The segments tile the span, and no two neighbours are free. -/
structure SpanOk (tags : ℕ → VmemTag) (sp : Span) : Prop where
  type : (tags sp.tag).type = .span ∨ (tags sp.tag).type = .spanImported
  seg : ∀ t ∈ sp.segs, (tags t).type = .free ∨ (tags t).type = .allocated
  size : ∀ t ∈ sp.segs, 2 ≤ (tags t).size
  tiles : Tiles (tags sp.tag).start (sp.segs.map (range tags))
    ((tags sp.tag).start + (tags sp.tag).size)
  alternate : sp.segs.IsChain (NotBothFree tags)
  bound : (tags sp.tag).start + (tags sp.tag).size < 2 ^ 64

variable {tags tags' : ℕ → VmemTag} {g t : ℕ} {l m m' r : List ℕ}

theorem map_range_congr (h : ∀ t ∈ l, tags' t = tags t) :
    l.map (range tags') = l.map (range tags) := by
  apply List.map_congr_left
  intro t ht
  rw [range, range, h t ht]

theorem isChain_congr (h : ∀ t ∈ l, tags' t = tags t) (hl : l.IsChain (NotBothFree tags)) :
    l.IsChain (NotBothFree tags') := by
  induction l with
  | nil => exact List.isChain_nil
  | cons a l ih =>
    cases l with
    | nil => exact List.isChain_singleton a
    | cons b l =>
      rw [List.isChain_cons_cons] at hl ⊢
      refine ⟨?_, ih (fun t ht => h t (List.mem_cons_of_mem a ht)) hl.2⟩
      rw [NotBothFree, h a (by simp), h b (by simp)]
      exact hl.1

theorem SpanOk.congr {sp : Span} (h : SpanOk tags sp)
    (hsame : ∀ t ∈ sp.tag :: sp.segs, tags' t = tags t) : SpanOk tags' sp := by
  have htag := hsame sp.tag (by simp)
  have hsegs : ∀ t ∈ sp.segs, tags' t = tags t :=
    fun t ht => hsame t (List.mem_cons_of_mem _ ht)
  refine ⟨?_, ?_, ?_, ?_, isChain_congr hsegs h.alternate, ?_⟩
  · rw [htag]
    exact h.type
  · intro t ht
    rw [hsegs t ht]
    exact h.seg t ht
  · intro t ht
    rw [hsegs t ht]
    exact h.size t ht
  · rw [htag, map_range_congr hsegs]
    exact h.tiles
  · rw [htag]
    exact h.bound

theorem SpanOk.ne_tag {sp sp' : Span} (h : SpanOk tags sp) (h' : SpanOk tags sp')
    (ht : t ∈ sp.segs) : t ≠ sp'.tag := by
  rintro rfl
  rcases h.seg _ ht with hs | hs <;> rcases h'.type with ht | ht <;> rw [hs] at ht <;> cases ht

theorem SpanOk.mem_range {sp : Span} (h : SpanOk tags sp) (ht : t ∈ sp.segs) :
    (tags sp.tag).start ≤ (tags t).start ∧
      (tags t).start + (tags t).size ≤ (tags sp.tag).start + (tags sp.tag).size :=
  h.tiles.mem (List.mem_map_of_mem (f := range tags) ht)

/-- **Replacing some of the segments** by others that tile the same part. -/
theorem SpanOk.replace (h : SpanOk tags ⟨g, l ++ m ++ r⟩)
    (hsame : ∀ t ∈ g :: (l ++ r), tags' t = tags t) (hne : m' ≠ [])
    (hseg : ∀ t ∈ m', (tags' t).type = .free ∨ (tags' t).type = .allocated)
    (hsize : ∀ t ∈ m', 2 ≤ (tags' t).size)
    (htiles : ∀ a b, Tiles a (m.map (range tags)) b → Tiles a (m'.map (range tags')) b)
    (hchain : m'.IsChain (NotBothFree tags'))
    (hleft : ∀ t ∈ l.getLast?, ∀ u ∈ m'.head?, NotBothFree tags' t u)
    (hright : ∀ t ∈ m'.getLast?, ∀ u ∈ r.head?, NotBothFree tags' t u) :
    SpanOk tags' ⟨g, l ++ m' ++ r⟩ := by
  have htag := hsame g (by simp)
  have hl : ∀ t ∈ l, tags' t = tags t := fun t ht => hsame t (by simp [ht])
  have hr : ∀ t ∈ r, tags' t = tags t := fun t ht => hsame t (by simp [ht])
  have hchain' := h.alternate
  simp only [List.isChain_append] at hchain'
  refine ⟨?_, ?_, ?_, ?_, ?_, ?_⟩
  · rw [htag]
    exact h.type
  · intro t ht
    simp only [List.mem_append] at ht
    rcases ht with (ht | ht) | ht
    · rw [hl t ht]
      exact h.seg t (by simp [ht])
    · exact hseg t ht
    · rw [hr t ht]
      exact h.seg t (by simp [ht])
  · intro t ht
    simp only [List.mem_append] at ht
    rcases ht with (ht | ht) | ht
    · rw [hl t ht]
      exact h.size t (by simp [ht])
    · exact hsize t ht
    · rw [hr t ht]
      exact h.size t (by simp [ht])
  · have ht := h.tiles
    simp only [List.map_append, tiles_append] at ht ⊢
    obtain ⟨b, ⟨a, hta, htb⟩, htc⟩ := ht
    rw [htag, map_range_congr hl, map_range_congr hr]
    exact ⟨b, ⟨a, hta, htiles a b htb⟩, htc⟩
  · simp only [List.isChain_append]
    refine ⟨⟨isChain_congr hl hchain'.1.1, hchain, hleft⟩, isChain_congr hr hchain'.2.1, ?_⟩
    intro t ht u hu
    rw [List.getLast?_append_of_ne_nil _ hne] at ht
    exact hright t ht u hu
  · rw [htag]
    exact h.bound

/-! ## Splitting a segment -/

/-- The books of an arena: what was imported, given back and allocated. -/
structure SameBooks (s s' : Arena) : Prop where
  imports : s'.imports = s.imports
  releases : s'.releases = s.releases
  live : s'.live = s.live
  clobbered : s'.clobbered = s.clobbered

theorem SameBooks.rfl {s : Arena} : SameBooks s s := ⟨Eq.refl _, Eq.refl _, Eq.refl _, Eq.refl _⟩

theorem SameBooks.trans {s₁ s₂ s₃ : Arena} (h : SameBooks s₁ s₂) (h' : SameBooks s₂ s₃) :
    SameBooks s₁ s₃ :=
  ⟨h'.imports.trans h.imports, h'.releases.trans h.releases, h'.live.trans h.live,
    h'.clobbered.trans h.clobbered⟩

theorem sameBooks_insertFree {s : Arena} {t : ℕ}
    (h : (insertFree s t).clobbered = s.clobbered) : SameBooks s (insertFree s t) := by
  refine ⟨?_, ?_, ?_, h⟩
  all_goals
    unfold insertFree
    split <;> rfl

@[simp] theorem tags_insertFree {s : Arena} {t : ℕ} : (insertFree s t).tags = s.tags := by
  unfold insertFree
  split <;> rfl

@[simp] theorem spanlist_insertFree {s : Arena} {t : ℕ} :
    (insertFree s t).spanlist = s.spanlist := by
  unfold insertFree
  split <;> rfl

theorem wadd_of_lt {a b : ℕ} (h : a + b < 2 ^ 64) : wadd a b = a + b := Nat.mod_eq_of_lt h

theorem wsub_of_le {a b : ℕ} (h : b ≤ a) (ha : a < 2 ^ 64) : wsub a b = a - b := by
  unfold wsub
  rw [show a + 2 ^ 64 - b = (a - b) + 2 ^ 64 by omega, Nat.add_mod_right]
  exact Nat.mod_eq_of_lt (by omega)

variable {a b : List Span} {hand off : List ℕ} {s : Arena} {at_ size left right : ℕ}

theorem splitLeft_spec (h : Linked (a ++ ⟨g, l ++ t :: r⟩ :: b) (left :: hand) [t] s)
    (hle : (s.tags t).start ≤ at_) (hlt : at_ < 2 ^ 64) (hsliver : at_ - (s.tags t).start ≠ 1) :
    Linked (a ++ ⟨g, (l ++ if (s.tags t).start < at_ then [left] else []) ++ t :: r⟩ :: b) hand [t]
        (splitLeft s t at_ left) ∧
      SameBooks s (splitLeft s t at_ left) ∧
      (splitLeft s t at_ left).tags = if (s.tags t).start < at_ then
        Function.update s.tags left ⟨.free, (s.tags t).start, at_ - (s.tags t).start⟩
        else s.tags := by
  unfold splitLeft
  by_cases hstart : (s.tags t).start < at_
  · simp only [hstart, if_true, tags_insertFree, wsub_of_le hle hlt]
    have h₁ := (h.setTag ⟨.free, (s.tags t).start, at_ - (s.tags t).start⟩
      (Or.inl List.mem_cons_self)).insertBefore
    have h₂ := h₁.insertFree (by simpa using h.hand_ne) ?_ (by simp [setTag]) ?_
    · obtain ⟨h₂, hclob⟩ := h₂
      have hbooks := sameBooks_insertFree hclob
      exact ⟨h₂, ⟨hbooks.imports, hbooks.releases, hbooks.live, hbooks.clobbered⟩, rfl⟩
    · rw [h₁.allTags]
      simp
    · simp only [setTag, Function.update_self]
      omega
  · simp only [hstart, if_false, List.append_nil]
    exact ⟨h.tagFree, ⟨rfl, rfl, rfl, rfl⟩, rfl⟩

theorem splitRight_spec {stop : ℕ} (h : Linked (a ++ ⟨g, l ++ t :: r⟩ :: b) (right :: hand) [t] s)
    (hstop : (s.tags t).start + (s.tags t).size = stop) (hlt : stop < 2 ^ 64)
    (hle : at_ + size ≤ stop) (hsliver : stop - (at_ + size) ≠ 1) :
    Linked (a ++ ⟨g, l ++ t :: ((if at_ + size < stop then [right] else []) ++ r)⟩ :: b) hand [t]
        (splitRight s t at_ size right) ∧
      SameBooks s (splitRight s t at_ size right) ∧
      (splitRight s t at_ size right).tags = if at_ + size < stop then
        Function.update s.tags right ⟨.free, at_ + size, stop - (at_ + size)⟩
        else s.tags := by
  unfold splitRight
  rw [wadd_of_lt (show (s.tags t).start + (s.tags t).size < 2 ^ 64 by omega), hstop,
    wadd_of_lt (show at_ + size < 2 ^ 64 by omega)]
  by_cases hend : at_ + size < stop
  · simp only [hend, if_true, tags_insertFree, wsub_of_le hle hlt]
    have h₁ := (h.setTag ⟨.free, at_ + size, stop - (at_ + size)⟩
      (Or.inl List.mem_cons_self)).insertAfter
    have h₂ := h₁.insertFree (by simpa using h.hand_ne) ?_ (by simp [setTag]) ?_
    · obtain ⟨h₂, hclob⟩ := h₂
      have hbooks := sameBooks_insertFree hclob
      exact ⟨h₂, ⟨hbooks.imports, hbooks.releases, hbooks.live, hbooks.clobbered⟩, rfl⟩
    · rw [h₁.allTags]
      simp
    · simp only [setTag, Function.update_self]
      omega
  · simp only [hend, if_false, List.nil_append]
    exact ⟨h.tagFree, ⟨rfl, rfl, rfl, rfl⟩, rfl⟩

/-- The allocated segments among some tags. -/
def allocs (tags : ℕ → VmemTag) (l : List ℕ) : List (ℕ × ℕ) :=
  (l.filter (fun t => (tags t).type = .allocated)).map (range tags)

@[simp] theorem allocs_append (l r : List ℕ) :
    allocs tags (l ++ r) = allocs tags l ++ allocs tags r := by
  simp [allocs]

theorem allocs_cons_of_ne (h : (tags t).type ≠ .allocated) :
    allocs tags (t :: l) = allocs tags l := by
  simp [allocs, h]

theorem allocs_cons_of_eq (h : (tags t).type = .allocated) :
    allocs tags (t :: l) = range tags t :: allocs tags l := by
  simp [allocs, h]

theorem allocs_congr (h : ∀ t ∈ l, tags' t = tags t) : allocs tags' l = allocs tags l := by
  induction l with
  | nil => rfl
  | cons a l ih =>
    have hl := ih (fun t ht => h t (List.mem_cons_of_mem a ht))
    have ha := h a (by simp)
    by_cases hta : (tags a).type = .allocated
    · rw [allocs_cons_of_eq hta, allocs_cons_of_eq (by rw [ha]; exact hta), hl, range, range, ha]
    · rw [allocs_cons_of_ne hta, allocs_cons_of_ne (by rw [ha]; exact hta), hl]

theorem queue_mid (a b : List Span) (g : ℕ) (l m r : List ℕ) :
    queue (a ++ ⟨g, l ++ m ++ r⟩ :: b) = queue a ++ g :: l ++ m ++ (r ++ queue b) := by
  simp

/-- What is left of the queue besides some segments of one span stays the same. -/
structure SameElse (a b : List Span) (g : ℕ) (l m r : List ℕ) (tags tags' : ℕ → VmemTag) :
    Prop where
  before : ∀ u ∈ queue a, tags' u = tags u
  tag : tags' g = tags g
  left : ∀ u ∈ l, tags' u = tags u
  right : ∀ u ∈ r, tags' u = tags u
  after : ∀ u ∈ queue b, tags' u = tags u

theorem SameElse.of_ne (h : Linked (a ++ ⟨g, l ++ m ++ r⟩ :: b) hand off s)
    (hsame : ∀ u, u ∉ m → u ∉ hand → tags' u = s.tags u) :
    SameElse a b g l m r s.tags tags' := by
  have hnodup := h.nodup_queue
  rw [queue_mid, List.nodup_append, List.nodup_append] at hnodup
  obtain ⟨⟨-, -, hlm⟩, -, hmr⟩ := hnodup
  have hold : ∀ u ∈ queue (a ++ ⟨g, l ++ m ++ r⟩ :: b), u ∉ m → tags' u = s.tags u := by
    intro u hu hum
    refine hsame u hum (fun hh => h.hand_notMem hh ?_)
    rw [h.allTags]
    exact hu
  have hbefore : ∀ u ∈ queue a ++ g :: l, tags' u = s.tags u := by
    intro u hu
    refine hold u ?_ (fun hum => hlm u hu u hum rfl)
    rw [queue_mid]
    exact List.mem_append_left _ (List.mem_append_left _ hu)
  have hafter : ∀ u ∈ r ++ queue b, tags' u = s.tags u := by
    intro u hu
    refine hold u ?_ (fun hum => hmr u (List.mem_append_right _ hum) u hu rfl)
    rw [queue_mid]
    exact List.mem_append_right _ hu
  refine ⟨fun u hu => ?_, ?_, fun u hu => ?_, fun u hu => ?_, fun u hu => ?_⟩
  · exact hbefore u (List.mem_append_left _ hu)
  · exact hbefore g (by simp)
  · exact hbefore u (by simp [hu])
  · exact hafter u (List.mem_append_left _ hu)
  · exact hafter u (List.mem_append_right _ hu)

theorem SameElse.spans {sp' : Span} (h : SameElse a b g l m r tags tags')
    (hok : ∀ sp ∈ a ++ ⟨g, l ++ m ++ r⟩ :: b, SpanOk tags sp) (hsp' : SpanOk tags' sp') :
    ∀ sp ∈ a ++ sp' :: b, SpanOk tags' sp := by
  intro sp hsp
  rcases List.mem_append.mp hsp with hsp | hsp
  · refine (hok sp (List.mem_append_left _ hsp)).congr (fun u hu => h.before u ?_)
    rcases List.mem_cons.mp hu with rfl | hu
    · exact mem_queue_of_tag hsp
    · exact mem_queue_of_seg hsp hu
  · rcases List.mem_cons.mp hsp with rfl | hsp
    · exact hsp'
    · refine (hok sp (by simp [hsp])).congr (fun u hu => h.after u ?_)
      rcases List.mem_cons.mp hu with rfl | hu
      · exact mem_queue_of_tag hsp
      · exact mem_queue_of_seg hsp hu

theorem SameElse.allocs (m' : List ℕ) (h : SameElse a b g l m r tags tags')
    (hg : (tags g).type ≠ .allocated) :
    (allocs tags' (queue (a ++ ⟨g, l ++ m' ++ r⟩ :: b))).Perm
        (allocs tags' m' ++ (allocs tags (queue a ++ l ++ r ++ queue b))) ∧
      (allocs tags (queue (a ++ ⟨g, l ++ m ++ r⟩ :: b))).Perm
        (allocs tags m ++ (allocs tags (queue a ++ l ++ r ++ queue b))) := by
  have hperm : ∀ w x y z v : List (ℕ × ℕ), (w ++ x ++ y ++ (z ++ v)).Perm
      (y ++ (w ++ x ++ z ++ v)) := by
    intro w x y z v
    refine (List.Perm.append_right _ List.perm_append_comm).trans ?_
    simp
  constructor
  · rw [queue_mid]
    simp only [allocs_append, allocs_cons_of_ne (show (tags' g).type ≠ .allocated by rwa [h.tag]),
      allocs_congr h.before, allocs_congr h.left, allocs_congr h.right, allocs_congr h.after]
    exact hperm _ _ _ _ _
  · rw [queue_mid]
    simp only [allocs_append, allocs_cons_of_ne hg]
    exact hperm _ _ _ _ _

theorem Linked.listRemove_twice {spans : List Span} (h : Linked spans hand off s)
    (ht : ∀ sp ∈ spans, t ≠ sp.tag) :
    Vmem.listRemove (Vmem.listRemove s t) t = Vmem.listRemove s t := by
  have h' := h.listRemove ht
  have hfree : ∀ i, ((s.freelists i).erase t).erase t = (s.freelists i).erase t := by
    intro i
    refine List.erase_of_not_mem (fun hm => ?_)
    exact (((h'.freelist i t).mp hm).2.1) List.mem_cons_self
  have hhash : ∀ i, ((s.hashlists i).erase t).erase t = (s.hashlists i).erase t := by
    intro i
    refine List.erase_of_not_mem (fun hm => ?_)
    exact (((h'.hashlist i t).mp hm).2.1) List.mem_cons_self
  have hspan : (s.spanlist.erase t).erase t = s.spanlist.erase t := by
    refine List.erase_of_not_mem (fun hm => ?_)
    have hm' : t ∈ spans.map Span.tag := h'.spanlist ▸ hm
    obtain ⟨sp, hsp, he⟩ := List.mem_map.mp hm'
    exact ht sp hsp he.symm
  simp only [Vmem.listRemove, hfree, hhash, hspan]

/-- The segments that an allocation at `at_` leaves of one from `start` to `stop`. -/
def pieces (start stop at_ size left t right : ℕ) : List ℕ :=
  (if start < at_ then [left] else []) ++ t :: (if at_ + size < stop then [right] else [])

/-- The pieces tile the segment, and only the one in the middle is allocated. -/
theorem pieces_spec {start stop : ℕ} (hle : start ≤ at_) (hfit : at_ + size ≤ stop)
    (hsize : 2 ≤ size) (hbefore : at_ - start ≠ 1) (hafter : stop - (at_ + size) ≠ 1)
    (ht : tags t = ⟨.allocated, at_, size⟩)
    (hleft : start < at_ → tags left = ⟨.free, start, at_ - start⟩)
    (hright : at_ + size < stop → tags right = ⟨.free, at_ + size, stop - (at_ + size)⟩) :
    (∀ u ∈ pieces start stop at_ size left t right,
      ((tags u).type = .free ∨ (tags u).type = .allocated) ∧ 2 ≤ (tags u).size) ∧
    Tiles start ((pieces start stop at_ size left t right).map (range tags)) stop ∧
    (pieces start stop at_ size left t right).IsChain (NotBothFree tags) ∧
    allocs tags (pieces start stop at_ size left t right) = [(at_, size)] := by
  unfold pieces
  by_cases hl : start < at_
  · have hl' := hleft hl
    by_cases hr : at_ + size < stop
    · have hr' := hright hr
      simp only [hl, hr, if_true]
      refine ⟨?_, ?_, ?_, ?_⟩
      · simp [hl', hr', ht]
        omega
      · simp [range, hl', hr', ht]
        omega
      · simp [NotBothFree, hl', hr', ht]
      · simp [allocs, range, hl', hr', ht]
    · simp only [hl, hr, if_true, if_false]
      refine ⟨?_, ?_, ?_, ?_⟩
      · simp [hl', ht]
        omega
      · simp [range, hl', ht]
        omega
      · simp [NotBothFree, hl', ht]
      · simp [allocs, range, hl', ht]
  · by_cases hr : at_ + size < stop
    · have hr' := hright hr
      simp only [hl, hr, if_true, if_false]
      refine ⟨?_, ?_, ?_, ?_⟩
      · simp [hr', ht]
        omega
      · simp [range, hr', ht]
        omega
      · simp [NotBothFree, hr', ht]
      · simp [allocs, range, hr', ht]
    · simp only [hl, hr, if_false]
      refine ⟨?_, ?_, ?_, ?_⟩
      · simp [ht]
        omega
      · simp [range, ht]
        omega
      · simp
      · simp [allocs, range, ht]

/-- **`split_seg`** cuts an allocation out of a free segment. -/
theorem splitSeg_spec (h : Linked (a ++ ⟨g, l ++ t :: r⟩ :: b) [left, right] [] s)
    (hok : ∀ sp ∈ a ++ ⟨g, l ++ t :: r⟩ :: b, SpanOk s.tags sp) (htype : (s.tags t).type = .free)
    (hsize : 2 ≤ size) (hle : (s.tags t).start ≤ at_)
    (hfit : at_ + size ≤ (s.tags t).start + (s.tags t).size)
    (hbefore : at_ - (s.tags t).start ≠ 1)
    (hafter : (s.tags t).start + (s.tags t).size - (at_ + size) ≠ 1) :
    ∃ s' m', splitSeg (listRemove s t) t at_ size left right = some s' ∧
      Linked (a ++ ⟨g, l ++ m' ++ r⟩ :: b) [] [] s' ∧ SameBooks s s' ∧
      SpanOk s'.tags ⟨g, l ++ m' ++ r⟩ ∧ t ∈ m' ∧ SameElse a b g l [t] r s.tags s'.tags ∧
      allocs s'.tags m' = [(at_, size)] := by
  have hspan : SpanOk s.tags ⟨g, l ++ t :: r⟩ := hok _ (by simp)
  have htag : ∀ sp ∈ a ++ ⟨g, l ++ t :: r⟩ :: b, t ≠ sp.tag :=
    fun sp hsp => hspan.ne_tag (hok sp hsp) (by simp)
  obtain ⟨-, htend⟩ := hspan.mem_range (show t ∈ l ++ t :: r by simp)
  have hbound := hspan.bound
  have hlr : left ≠ right := by
    have := (List.nodup_append.mp (List.nodup_append.mp h.nodup).1).1
    simp at this
    exact this
  have hlt : left ≠ t := h.hand_ne
  have hrt : right ≠ t := (h.perm (List.Perm.swap left right [])).hand_ne
  -- off its lists, then the two rests
  have h₁ := h.listRemove htag
  obtain ⟨h₂, hbooks₂, htags₂⟩ := splitLeft_spec (s := listRemove s t) h₁ hle (by omega) hbefore
  generalize hs₂ : splitLeft (listRemove s t) t at_ left = s₂ at h₂ hbooks₂ htags₂
  have ht₂ : s₂.tags t = s.tags t := by
    rw [htags₂]
    split
    · exact Function.update_of_ne hlt.symm _ _
    · rfl
  obtain ⟨h₃, hbooks₃, htags₃⟩ := splitRight_spec (s := s₂) h₂
    (by rw [ht₂]) (by omega) hfit hafter
  generalize hs₃ : splitRight s₂ t at_ size right = s₃ at h₃ hbooks₃ htags₃
  have h₄ := (h₃.setTag ⟨.allocated, at_, size⟩ (Or.inr List.mem_cons_self)).insertAlloc
    (by simp) (h₃.seg_mem) (by simp [setTag])
  generalize htags : Function.update s₃.tags t ⟨.allocated, at_, size⟩ = tags'
  have ht' : tags' t = ⟨.allocated, at_, size⟩ := by
    rw [← htags, Function.update_self]
  have hsame : ∀ u, u ≠ t → u ≠ left → u ≠ right → tags' u = s.tags u := by
    intro u hut hul hur
    have h₃u : s₃.tags u = s₂.tags u := by
      rw [htags₃]
      split
      · exact Function.update_of_ne hur _ _
      · rfl
    have h₂u : s₂.tags u = s.tags u := by
      rw [htags₂]
      split
      · exact Function.update_of_ne hul _ _
      · rfl
    rw [← htags, Function.update_of_ne hut, h₃u, h₂u]
  have hleft' : (s.tags t).start < at_ →
      tags' left = ⟨.free, (s.tags t).start, at_ - (s.tags t).start⟩ := by
    intro hlt'
    have h₃l : s₃.tags left = s₂.tags left := by
      rw [htags₃]
      split
      · exact Function.update_of_ne hlr _ _
      · rfl
    rw [← htags, Function.update_of_ne hlt, h₃l, htags₂]
    simp [listRemove, hlt']
  have hright' : at_ + size < (s.tags t).start + (s.tags t).size →
      tags' right = ⟨.free, at_ + size, (s.tags t).start + (s.tags t).size - (at_ + size)⟩ := by
    intro hlt'
    rw [← htags, Function.update_of_ne hrt, htags₃]
    simp [hlt']
  have helse : SameElse a b g l [t] r s.tags tags' := by
    have h' : Linked (a ++ ⟨g, l ++ [t] ++ r⟩ :: b) [left, right] [] s := by simpa using h
    refine SameElse.of_ne h' (fun u hu hh => ?_)
    simp only [List.mem_cons, List.not_mem_nil, or_false, not_or] at hu hh
    exact hsame u hu hh.1 hh.2
  have hchain : (l ++ [t] ++ r).IsChain (NotBothFree s.tags) := by
    have := hspan.alternate
    simpa using this
  simp only [List.isChain_append, List.getLast?_append_of_ne_nil _ (List.cons_ne_nil t [])]
    at hchain
  obtain ⟨hpieces, htiles, hpchain, hallocs⟩ :=
    pieces_spec hle hfit hsize hbefore hafter ht' hleft' hright'
  generalize hm : pieces (s.tags t).start ((s.tags t).start + (s.tags t).size) at_ size left t
    right = m' at hpieces htiles hpchain hallocs
  have htm : t ∈ m' := by
    rw [← hm, pieces]
    simp
  refine ⟨insertAlloc (setTag s₃ t ⟨.allocated, at_, size⟩) t, m', ?_, ?_, ?_, ?_, htm, ?_, ?_⟩
  · have htype₁ : ((listRemove s t).tags t).type = .free := htype
    rw [splitSeg, h.listRemove_twice htag]
    simp only [htype₁, ne_eq, not_true_eq_false, if_false]
    rw [hs₂, hs₃]
  · have hsegs : l ++ m' ++ r = (l ++ if (s.tags t).start < at_ then [left] else []) ++
        t :: ((if at_ + size < (s.tags t).start + (s.tags t).size then [right] else []) ++ r) := by
      rw [← hm, pieces]
      simp
    rw [hsegs]
    exact h₄
  · have hbooks := hbooks₂.trans hbooks₃
    exact ⟨hbooks.imports, hbooks.releases, hbooks.live, hbooks.clobbered⟩
  · show SpanOk (Function.update s₃.tags t ⟨.allocated, at_, size⟩) _
    rw [htags]
    have hspan' : SpanOk s.tags ⟨g, l ++ [t] ++ r⟩ := by simpa using hspan
    refine hspan'.replace ?_ (List.ne_nil_of_mem htm) (fun u hu => (hpieces u hu).1)
      (fun u hu => (hpieces u hu).2) ?_ hpchain ?_ ?_
    · intro u hu
      rcases List.mem_cons.mp hu with rfl | hu
      · exact helse.tag
      · rcases List.mem_append.mp hu with hu | hu
        · exact helse.left u hu
        · exact helse.right u hu
    · intro x y hxy
      simp only [List.map_cons, List.map_nil, range, tiles_cons, tiles_nil] at hxy
      obtain ⟨rfl, rfl⟩ := hxy
      exact htiles
    · intro u hu v _
      have hfree := hchain.1.2.2 u hu t (by simp)
      rw [NotBothFree, helse.left u (List.mem_of_getLast? hu)]
      exact fun hboth => hfree ⟨hboth.1, htype⟩
    · intro u _ v hv
      have hfree := hchain.2.2 t (by simp) v hv
      rw [NotBothFree, helse.right v (List.mem_of_head? hv)]
      exact fun hboth => hfree ⟨htype, hboth.2⟩
  · show SameElse a b g l [t] r s.tags (Function.update s₃.tags t ⟨.allocated, at_, size⟩)
    rw [htags]
    exact helse
  · show allocs (Function.update s₃.tags t ⟨.allocated, at_, size⟩) _ = _
    rw [htags]
    exact hallocs

/-! ## Merging segments -/

/-- The tag before a segment: that of the segment before it, or of the span. -/
theorem Linked.prevOf_eq (h : Linked (a ++ ⟨g, l ++ t :: r⟩ :: b) hand off s) :
    prevOf t s.allTags = some ((g :: l).getLast (List.cons_ne_nil g l)) := by
  have hmem := h.notMem_before
  have hlast : (g :: l).getLast (List.cons_ne_nil g l) ∈ queue a ++ g :: l :=
    List.mem_append_right _ (List.getLast_mem _)
  have hne : (g :: l).getLast (List.cons_ne_nil g l) ≠ t := fun he => hmem (he ▸ hlast)
  have hsplit : s.allTags = (queue a ++ (g :: l).dropLast) ++
      (g :: l).getLast (List.cons_ne_nil g l) :: t :: (r ++ queue b) := by
    conv_lhs => rw [h.allTags_eq, ← List.dropLast_append_getLast (List.cons_ne_nil g l)]
    simp
  rw [hsplit]
  refine prevOf_append (fun ht => hmem ?_) hne
  rcases List.mem_append.mp ht with ht | ht
  · exact List.mem_append_left _ ht
  · exact List.mem_append_right _ (List.dropLast_subset _ ht)

theorem Linked.nextOf_eq (h : Linked (a ++ ⟨g, l ++ t :: r⟩ :: b) hand off s) :
    nextOf t s.allTags = (r ++ queue b).head? := by
  rw [h.allTags_eq]
  exact nextOf_append h.notMem_before

/-- The free segment `u` stands for the segments `m` around `t`. -/
structure Merged (tags tags' : ℕ → VmemTag) (m : List ℕ) (t u : ℕ) : Prop where
  mem : u ∈ m
  type : (tags' u).type = .free
  range : ∀ x y, Tiles x (m.map (range tags)) y → range tags' u = (x, y - x)
  same : ∀ v, v ∉ m → tags' v = tags v
  free : ∀ v ∈ m, v ≠ t → (tags v).type = .free

theorem Merged.self (h : (tags t).type = .free) : Merged tags tags [t] t t where
  mem := List.mem_singleton_self t
  type := h
  range := by
    intro x y hxy
    simp only [List.map_cons, List.map_nil, Vmem.range, tiles_cons, tiles_nil] at hxy
    obtain ⟨rfl, rfl⟩ := hxy
    rw [Vmem.range, Nat.add_sub_cancel_left]
  same := fun _ _ => Eq.refl _
  free := fun v hv hne => absurd (List.mem_singleton.mp hv) hne

theorem Merged.trans {tags'' : ℕ → VmemTag} {lf rf : List ℕ} {u w : ℕ}
    (h : Merged tags tags' (lf ++ [t]) t u) (h' : Merged tags' tags'' ([u] ++ rf) u w)
    (hdisj : ∀ v ∈ rf, v ∉ lf ++ [t]) : Merged tags tags'' (lf ++ [t] ++ rf) t w := by
  have hrf : ∀ v ∈ rf, tags' v = tags v := fun v hv => h.same v (hdisj v hv)
  refine ⟨?_, h'.type, ?_, ?_, ?_⟩
  · rcases List.mem_append.mp h'.mem with hw | hw
    · rw [List.mem_singleton.mp hw]
      exact List.mem_append_left _ h.mem
    · exact List.mem_append_right _ hw
  · intro x y hxy
    rw [List.map_append, tiles_append] at hxy
    obtain ⟨z, hxz, hzy⟩ := hxy
    refine h'.range x y ?_
    have hu := h.range x z hxz
    simp only [List.cons_append, List.nil_append, List.map_cons, map_range_congr hrf]
    rw [hu, tiles_cons]
    have := hxz.le
    refine ⟨rfl, ?_⟩
    rwa [show x + (z - x) = z by omega]
  · intro v hv
    rw [List.mem_append, not_or] at hv
    have hvu : v ∉ [u] ++ rf := by
      rw [List.mem_append, not_or, List.mem_singleton]
      exact ⟨fun he => hv.1 (he ▸ h.mem), hv.2⟩
    rw [h'.same v hvu, h.same v hv.1]
  · intro v hv hvt
    rcases List.mem_append.mp hv with hv | hv
    · exact h.free v hv hvt
    · have hvu : v ≠ u := fun he => hdisj v hv (he ▸ h.mem)
      rw [← hrf v hv]
      exact h'.free v (List.mem_append_right _ hv) hvu

/-- **Merging with the free segment before.** -/
theorem mergeLeft_spec (h : Linked (a ++ ⟨g, l ++ t :: r⟩ :: b) [] [t] s)
    (htag : ∀ sp ∈ a ++ ⟨g, l ++ t :: r⟩ :: b, (s.tags sp.tag).type ≠ .free)
    (htype : (s.tags t).type = .free) (hchain : l.IsChain (NotBothFree s.tags))
    (hbound : ∀ u ∈ l, (s.tags u).size + (s.tags t).size < 2 ^ 64) :
    ∃ l' lf u s', mergeLeft s t ((g :: l).getLast (List.cons_ne_nil g l)) = (u, s') ∧
      l = l' ++ lf ∧ Linked (a ++ ⟨g, l' ++ u :: r⟩ :: b) [] [u] s' ∧ SameBooks s s' ∧
      Merged s.tags s'.tags (lf ++ [t]) t u ∧
      (∀ v ∈ l'.getLast?, (s.tags v).type ≠ .free) := by
  rcases List.eq_nil_or_concat l with rfl | ⟨l', left, rfl⟩
  · have hg : (s.tags g).type ≠ .free := htag ⟨g, t :: r⟩ (by simp)
    refine ⟨[], [], t, s, ?_, rfl, h, SameBooks.rfl, Merged.self htype, by simp⟩
    simp [mergeLeft, hg]
  · rw [List.concat_eq_append] at *
    have hlast : (g :: (l' ++ [left])).getLast (List.cons_ne_nil g _) = left := by simp
    rw [hlast]
    by_cases hfree : (s.tags left).type = .free
    · have hne : left ≠ t := by
        rintro rfl
        exact h.notMem_before (by simp)
      have hltag : ∀ sp ∈ a ++ ⟨g, l' ++ left :: r⟩ :: b, left ≠ sp.tag := by
        intro sp hsp he
        rcases List.mem_append.mp hsp with hsp | hsp
        · exact htag sp (by simp [hsp]) (he ▸ hfree)
        · rcases List.mem_cons.mp hsp with rfl | hsp
          · exact htag ⟨g, l' ++ [left] ++ t :: r⟩ (by simp) (by rw [← he]; exact hfree)
          · exact htag sp (by simp [hsp]) (he ▸ hfree)
      have h₁ := h.removeSeg (by simp)
      have hsegs : l' ++ [left] ++ r = l' ++ left :: r := by simp
      rw [hsegs] at h₁
      have h₂ := ((h₁.listRemove hltag).setTag
        { s.tags left with size := (s.tags left).size + (s.tags t).size }
        (Or.inr List.mem_cons_self)).tagFree
      have hadd : wadd (s.tags left).size (s.tags t).size =
          (s.tags left).size + (s.tags t).size := wadd_of_lt (hbound left (by simp))
      refine ⟨l', [left], left, _, ?_, rfl, h₂, ⟨rfl, rfl, rfl, rfl⟩, ?_, ?_⟩
      · unfold mergeLeft
        rw [if_pos hfree, ← hadd]
        rfl
      · refine ⟨by simp, ?_, ?_, ?_, ?_⟩
        · simp [tagFree, setTag, hfree]
        · intro x y hxy
          simp only [List.cons_append, List.nil_append, List.map_cons, List.map_nil, range,
            tiles_cons, tiles_nil] at hxy
          obtain ⟨rfl, -, rfl⟩ := hxy
          simp only [range, tagFree, setTag, Function.update_self, Prod.mk.injEq, true_and]
          omega
        · intro v hv
          have hne' : v ≠ left := fun he => hv (by simp [he])
          simp [tagFree, setTag, hne', listRemove]
        · intro v hv hvt
          simp only [List.cons_append, List.nil_append, List.mem_cons, List.not_mem_nil,
            or_false] at hv
          rcases hv with rfl | rfl
          · exact hfree
          · exact absurd rfl hvt
      · intro v hv hvf
        rw [List.isChain_append] at hchain
        exact hchain.2.2 v hv left (by simp) ⟨hvf, hfree⟩
    · refine ⟨l' ++ [left], [], t, s, ?_, by simp, h, SameBooks.rfl, Merged.self htype, ?_⟩
      · simp [mergeLeft, hfree]
      · intro v hv
        simp only [List.getLast?_append, List.getLast?_singleton, Option.some_or,
          Option.mem_def, Option.some.injEq] at hv
        subst hv
        exact hfree

/-- **Merging with the free segment behind.** -/
theorem mergeRight_spec (h : Linked (a ++ ⟨g, l ++ t :: r⟩ :: b) [] [t] s)
    (htag : ∀ sp ∈ a ++ ⟨g, l ++ t :: r⟩ :: b, (s.tags sp.tag).type ≠ .free)
    (htype : (s.tags t).type = .free) (hchain : r.IsChain (NotBothFree s.tags))
    (hbound : ∀ u ∈ r, (s.tags u).size + (s.tags t).size < 2 ^ 64) :
    ∃ r' rf u s', mergeRight s t (nextOf t s.allTags) = (u, s') ∧
      r = rf ++ r' ∧ Linked (a ++ ⟨g, l ++ u :: r'⟩ :: b) [] [u] s' ∧ SameBooks s s' ∧
      Merged s.tags s'.tags ([t] ++ rf) t u ∧
      (∀ v ∈ r'.head?, (s.tags v).type ≠ .free) := by
  rw [h.nextOf_eq]
  rcases r with - | ⟨right, r'⟩
  · refine ⟨[], [], t, s, ?_, rfl, h, SameBooks.rfl, Merged.self htype, by simp⟩
    rcases b with - | ⟨sp, b⟩
    · rfl
    · have hsp : (s.tags sp.tag).type ≠ .free := htag sp (by simp)
      simp [mergeRight, hsp]
  · have hhead : (right :: r' ++ queue b).head? = some right := rfl
    rw [hhead]
    by_cases hfree : (s.tags right).type = .free
    · have hne : right ≠ t := by
        rintro rfl
        have hnodup := h.nodup_queue
        rw [queue_split] at hnodup
        have := (List.nodup_append.mp hnodup).2.1
        simp at this
      have hrtag : ∀ sp ∈ a ++ ⟨g, l ++ right :: r'⟩ :: b, right ≠ sp.tag := by
        intro sp hsp he
        rcases List.mem_append.mp hsp with hsp | hsp
        · exact htag sp (by simp [hsp]) (he ▸ hfree)
        · rcases List.mem_cons.mp hsp with rfl | hsp
          · exact htag ⟨g, l ++ t :: right :: r'⟩ (by simp) (by rw [← he]; exact hfree)
          · exact htag sp (by simp [hsp]) (he ▸ hfree)
      have h₁ := h.removeSeg (by simp)
      have h₂ := ((h₁.listRemove hrtag).setTag
        ⟨.free, (s.tags t).start, (s.tags right).size + (s.tags t).size⟩
        (Or.inr List.mem_cons_self)).tagFree
      have hadd : wadd (s.tags right).size (s.tags t).size =
          (s.tags right).size + (s.tags t).size := wadd_of_lt (hbound right (by simp))
      refine ⟨r', [right], right, _, ?_, rfl, h₂, ⟨rfl, rfl, rfl, rfl⟩, ?_, ?_⟩
      · unfold mergeRight
        simp only []
        rw [if_pos hfree, ← hadd]
        rfl
      · refine ⟨by simp, ?_, ?_, ?_, ?_⟩
        · simp [tagFree, setTag]
        · intro x y hxy
          simp only [List.cons_append, List.nil_append, List.map_cons, List.map_nil, range,
            tiles_cons, tiles_nil] at hxy
          obtain ⟨rfl, -, rfl⟩ := hxy
          simp only [range, tagFree, setTag, Function.update_self, Prod.mk.injEq, true_and]
          omega
        · intro v hv
          have hne' : v ≠ right := fun he => hv (by simp [he])
          simp [tagFree, setTag, hne', listRemove]
        · intro v hv hvt
          simp only [List.cons_append, List.nil_append, List.mem_cons, List.not_mem_nil,
            or_false] at hv
          rcases hv with rfl | rfl
          · exact absurd rfl hvt
          · exact hfree
      · intro v hv hvf
        rcases r' with - | ⟨w, r'⟩
        · simp at hv
        · simp only [List.head?_cons, Option.mem_def, Option.some.injEq] at hv
          subst hv
          exact (List.isChain_cons_cons.mp hchain).1 ⟨hfree, hvf⟩
    · refine ⟨right :: r', [], t, s, ?_, rfl, h, SameBooks.rfl, Merged.self htype, ?_⟩
      · simp [mergeRight, hfree]
      · intro v hv
        simp only [List.head?_cons, Option.mem_def, Option.some.injEq] at hv
        subst hv
        exact hfree

/-! ## The end of a span -/

/-- **A span without segments leaves the queue.** -/
theorem Linked.removeSpan (h : Linked (a ++ ⟨g, []⟩ :: b) hand [] s)
    (hg : (s.tags g).type = .span ∨ (s.tags g).type = .spanImported) :
    Linked (a ++ b) hand [] (Vmem.tagFree
      { Vmem.listRemove s g with allTags := (Vmem.listRemove s g).allTags.erase g } g) := by
  have hfree : ∀ i, (s.freelists i).erase g = s.freelists i := by
    intro i
    refine List.erase_of_not_mem (fun hm => ?_)
    have := ((h.freelist i g).mp hm).2.2.1
    rcases hg with hg | hg <;> rw [hg] at this <;> cases this
  have hhash : ∀ i, (s.hashlists i).erase g = s.hashlists i := by
    intro i
    refine List.erase_of_not_mem (fun hm => ?_)
    have := ((h.hashlist i g).mp hm).2.2.1
    rcases hg with hg | hg <;> rw [hg] at this <;> cases this
  have hq : s.allTags = queue a ++ g :: queue b := by
    rw [h.allTags]
    simp
  have hnodup : (queue a ++ g :: queue b).Nodup := hq ▸ h.nodup_allTags
  have hga : g ∉ queue a := fun hm =>
    (List.nodup_append.mp hnodup).2.2 g hm g List.mem_cons_self rfl
  have hspanlist : s.spanlist.erase g = (a ++ b).map Span.tag := by
    have hgs : g ∉ a.map Span.tag := by
      intro hm
      obtain ⟨sp, hsp, rfl⟩ := List.mem_map.mp hm
      exact hga (mem_queue_of_tag hsp)
    rw [h.spanlist, List.map_append, List.map_cons, List.erase_append_right _ hgs,
      List.erase_cons_head, List.map_append]
  -- the span is on no list of segments, so that it counts as taken off
  have hoff : Linked (a ++ ⟨g, []⟩ :: b) hand [g] s := by
    refine ⟨h.allTags, h.spanlist, h.nodup, h.fresh, h.freelistNodup, ?_, h.hashlistNodup, ?_⟩
    · intro i u
      refine (h.freelist i u).trans ?_
      by_cases hu : u = g
      · subst hu
        rcases hg with hg | hg <;> simp [hg]
      · simp [hu]
    · intro i u
      refine (h.hashlist i u).trans ?_
      by_cases hu : u = g
      · subst hu
        rcases hg with hg | hg <;> simp [hg]
      · simp [hu]
  have h₁ : Linked (a ++ b) (g :: hand) [] { s with
      allTags := s.allTags.erase g
      spanlist := s.spanlist.erase g } := by
    refine hoff.dequeue ?_ ?_ (by simp) hspanlist
    · rw [hq, List.erase_append_right _ hga, List.erase_cons_head, queue_append]
    · have : queue (a ++ ⟨g, []⟩ :: b) = queue a ++ g :: queue b := by simp
      rw [this, queue_append]
      exact List.perm_middle
  have h₂ := h₁.tagFree
  unfold Vmem.listRemove
  simp only [hfree, hhash]
  exact h₂

end Vmem
