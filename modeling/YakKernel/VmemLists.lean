/-
# The lists of an arena

Which tags stand in the queue of an arena and which on its lists, while a call takes tags from
the pool, takes them off their lists and puts them back.
-/
import YakKernel.Vmem

namespace Vmem

open SegmentQueue

/-! ## Spans and the queue -/

/-- A span: its own tag and those of its segments. -/
structure Span where
  tag : ℕ
  segs : List ℕ

/-- The tags of spans, in the order of the queue. -/
def queue : List Span → List ℕ
  | [] => []
  | sp :: spans => sp.tag :: sp.segs ++ queue spans

@[simp] theorem queue_nil : queue [] = [] := rfl

@[simp] theorem queue_cons (sp : Span) (spans : List Span) :
    queue (sp :: spans) = sp.tag :: (sp.segs ++ queue spans) := rfl

@[simp] theorem queue_append (a b : List Span) : queue (a ++ b) = queue a ++ queue b := by
  induction a with
  | nil => rfl
  | cons sp a ih => simp [ih]

theorem mem_queue_of_tag {spans : List Span} {sp : Span} (h : sp ∈ spans) :
    sp.tag ∈ queue spans := by
  obtain ⟨a, b, rfl⟩ := List.append_of_mem h
  simp

theorem mem_queue_of_seg {spans : List Span} {sp : Span} {t : ℕ} (h : sp ∈ spans)
    (ht : t ∈ sp.segs) : t ∈ queue spans := by
  obtain ⟨a, b, rfl⟩ := List.append_of_mem h
  simp [ht]

theorem mem_queue {spans : List Span} {t : ℕ} (h : t ∈ queue spans) :
    ∃ sp ∈ spans, t = sp.tag ∨ t ∈ sp.segs := by
  induction spans with
  | nil => simp at h
  | cons sp spans ih =>
    simp only [queue_cons, List.mem_cons, List.mem_append] at h
    rcases h with rfl | h | h
    · exact ⟨sp, by simp, Or.inl rfl⟩
    · exact ⟨sp, by simp, Or.inr h⟩
    · obtain ⟨sp', hsp', ht⟩ := ih h
      exact ⟨sp', List.mem_cons_of_mem sp hsp', ht⟩

theorem queue_split (a b : List Span) (g t : ℕ) (l r : List ℕ) :
    queue (a ++ ⟨g, l ++ t :: r⟩ :: b) = (queue a ++ g :: l) ++ t :: (r ++ queue b) := by
  simp

/-! ## The lists -/

/-- The queue is that of `spans`, the tags in `hand` are neither in the queue nor in the pool, and
those `off` the lists are in the queue; every other segment is on the list that it belongs on. -/
structure Linked (spans : List Span) (hand off : List ℕ) (s : Arena) : Prop where
  allTags : s.allTags = queue spans
  spanlist : s.spanlist = spans.map Span.tag
  nodup : (hand ++ s.freetags ++ s.allTags).Nodup
  fresh : ∀ t ∈ hand ++ s.freetags ++ s.allTags, t < s.spare
  freelistNodup : ∀ i, (s.freelists i).Nodup
  freelist : ∀ i t, t ∈ s.freelists i ↔
    t ∈ s.allTags ∧ t ∉ off ∧ (s.tags t).type = .free ∧ freelistIdx (s.tags t).size = i + 1
  hashlistNodup : ∀ i, (s.hashlists i).Nodup
  hashlist : ∀ i t, t ∈ s.hashlists i ↔
    t ∈ s.allTags ∧ t ∉ off ∧ (s.tags t).type = .allocated ∧ hashIndex (s.tags t).start = i

variable {spans : List Span} {hand off : List ℕ} {s s' : Arena} {t : ℕ}

theorem Linked.nodup_allTags (h : Linked spans hand off s) : s.allTags.Nodup :=
  (List.nodup_append.mp h.nodup).2.1

theorem Linked.nodup_queue (h : Linked spans hand off s) : (queue spans).Nodup :=
  h.allTags ▸ h.nodup_allTags

theorem Linked.hand_notMem (h : Linked spans hand off s) (ht : t ∈ hand) : t ∉ s.allTags := by
  intro hq
  have := (List.nodup_append.mp h.nodup).2.2 t (List.mem_append_left _ ht) t hq
  exact this rfl

theorem Linked.drop (h : Linked spans (t :: hand) off s) : Linked spans hand off s := by
  refine ⟨h.allTags, h.spanlist, ?_, ?_, h.freelistNodup, h.freelist, h.hashlistNodup,
    h.hashlist⟩
  · exact (List.nodup_cons.mp h.nodup).2
  · intro u hu
    exact h.fresh u (List.mem_cons_of_mem t hu)

theorem Linked.perm {hand' : List ℕ} (h : Linked spans hand off s) (hp : hand'.Perm hand) :
    Linked spans hand' off s := by
  have hall : (hand' ++ s.freetags ++ s.allTags).Perm (hand ++ s.freetags ++ s.allTags) :=
    (hp.append_right _).append_right _
  refine ⟨h.allTags, h.spanlist, hall.nodup_iff.mpr h.nodup, ?_, h.freelistNodup, h.freelist,
    h.hashlistNodup, h.hashlist⟩
  intro u hu
  exact h.fresh u (hall.mem_iff.mp hu)

theorem Linked.tagRefill (h : Linked spans hand off s) :
    Linked spans hand off (Vmem.tagRefill s) := by
  have hnew : ∀ u ∈ ((List.range (5 - s.freetags.length)).map (s.spare + ·)).reverse,
      s.spare ≤ u ∧ u < s.spare + (5 - s.freetags.length) := by
    intro u hu
    rw [List.mem_reverse, List.mem_map] at hu
    obtain ⟨i, hi, rfl⟩ := hu
    rw [List.mem_range] at hi
    omega
  have hperm : (hand ++ (Vmem.tagRefill s).freetags ++ s.allTags).Perm
      (((List.range (5 - s.freetags.length)).map (s.spare + ·)).reverse ++
        (hand ++ s.freetags ++ s.allTags)) := by
    simp only [Vmem.tagRefill, ← List.append_assoc]
    refine ((List.Perm.append_right _ ?_).append_right _)
    exact List.perm_append_comm
  refine ⟨h.allTags, h.spanlist, ?_, ?_, h.freelistNodup, h.freelist, h.hashlistNodup,
    h.hashlist⟩
  · refine hperm.nodup_iff.mpr (List.nodup_append.mpr ⟨?_, h.nodup, ?_⟩)
    · rw [List.nodup_reverse]
      refine List.Nodup.map ?_ List.nodup_range
      intro i j hij
      exact Nat.add_left_cancel hij
    · intro u hu v hv
      have := (hnew u hu).1
      have := h.fresh v hv
      omega
  · intro u hu
    show u < s.spare + (5 - s.freetags.length)
    rcases List.mem_append.mp (hperm.mem_iff.mp hu) with hu | hu
    · exact (hnew u hu).2
    · have := h.fresh u hu
      omega

/-- **`tag_alloc`** takes a tag into the hand. -/
theorem Linked.tagAlloc {populate : Bool} (h : Linked spans hand off s)
    (hs : Vmem.tagAlloc s populate = some (t, s')) : Linked spans (t :: hand) off s' := by
  unfold Vmem.tagAlloc at hs
  have hr : Linked spans hand off (if populate then s else Vmem.tagRefill s) := by
    split
    · exact h
    · exact h.tagRefill
  generalize (if populate then s else Vmem.tagRefill s) = s₁ at hs hr
  cases hf : s₁.freetags with
  | nil => simp [hf] at hs
  | cons u us =>
    simp only [hf, Option.some.injEq, Prod.mk.injEq] at hs
    obtain ⟨rfl, rfl⟩ := hs
    have hperm : (u :: hand ++ us ++ s₁.allTags).Perm (hand ++ s₁.freetags ++ s₁.allTags) := by
      rw [hf]
      refine List.Perm.append_right _ ?_
      exact List.perm_middle.symm
    refine ⟨hr.allTags, hr.spanlist, hperm.nodup_iff.mpr hr.nodup, ?_, hr.freelistNodup,
      hr.freelist, hr.hashlistNodup, hr.hashlist⟩
    intro v hv
    exact hr.fresh v (hperm.mem_iff.mp hv)

/-- **`tag_free`** puts a tag back into the pool of the arena. -/
theorem Linked.tagFree (h : Linked spans (t :: hand) off s) :
    Linked spans hand off (Vmem.tagFree s t) := by
  have hperm : (hand ++ (t :: s.freetags) ++ s.allTags).Perm
      (t :: hand ++ s.freetags ++ s.allTags) := by
    refine List.Perm.append_right _ ?_
    exact List.perm_middle
  refine ⟨h.allTags, h.spanlist, hperm.nodup_iff.mpr h.nodup, ?_, h.freelistNodup, h.freelist,
    h.hashlistNodup, h.hashlist⟩
  intro v hv
  exact h.fresh v (hperm.mem_iff.mp hv)

/-- **Writing a tag** that is on no list. -/
theorem Linked.setTag (tag : VmemTag) (h : Linked spans hand off s) (ht : t ∈ hand ∨ t ∈ off) :
    Linked spans hand off (Vmem.setTag s t tag) := by
  have hne : ∀ u, u ∈ s.allTags → u ∉ off → (Vmem.setTag s t tag).tags u = s.tags u := by
    intro u hu hoff
    have : u ≠ t := by
      rintro rfl
      rcases ht with ht | ht
      · exact h.hand_notMem ht hu
      · exact hoff ht
    simp [Vmem.setTag, this]
  refine ⟨h.allTags, h.spanlist, h.nodup, h.fresh, h.freelistNodup, ?_, h.hashlistNodup, ?_⟩
  · intro i u
    refine (h.freelist i u).trans ?_
    refine and_congr_right (fun hu => and_congr_right (fun hoff => ?_))
    rw [hne u hu hoff]
  · intro i u
    refine (h.hashlist i u).trans ?_
    refine and_congr_right (fun hu => and_congr_right (fun hoff => ?_))
    rw [hne u hu hoff]

theorem Linked.span (h : Linked spans hand (t :: off) s)
    (ht : (s.tags t).type = .span ∨ (s.tags t).type = .spanImported) :
    Linked spans hand off s := by
  refine ⟨h.allTags, h.spanlist, h.nodup, h.fresh, h.freelistNodup, ?_, h.hashlistNodup, ?_⟩
  · intro i u
    refine (h.freelist i u).trans ?_
    by_cases hu : u = t
    · subst hu
      rcases ht with ht | ht <;> simp [ht]
    · simp [hu]
  · intro i u
    refine (h.hashlist i u).trans ?_
    by_cases hu : u = t
    · subst hu
      rcases ht with ht | ht <;> simp [ht]
    · simp [hu]

/-- **`LIST_REMOVE`** of a segment. -/
theorem Linked.listRemove (h : Linked spans hand off s) (ht : ∀ sp ∈ spans, t ≠ sp.tag) :
    Linked spans hand (t :: off) (Vmem.listRemove s t) := by
  refine ⟨h.allTags, ?_, h.nodup, h.fresh, fun i => (h.freelistNodup i).erase t, ?_,
    fun i => (h.hashlistNodup i).erase t, ?_⟩
  · show s.spanlist.erase t = _
    rw [List.erase_of_not_mem, h.spanlist]
    rw [h.spanlist, List.mem_map]
    rintro ⟨sp, hsp, rfl⟩
    exact ht sp hsp rfl
  · intro i u
    show u ∈ (s.freelists i).erase t ↔ _
    rw [(h.freelistNodup i).mem_erase_iff, h.freelist i u, List.mem_cons, not_or]
    tauto
  · intro i u
    show u ∈ (s.hashlists i).erase t ↔ _
    rw [(h.hashlistNodup i).mem_erase_iff, h.hashlist i u, List.mem_cons, not_or]
    tauto

/-- **`insert_free`** of a segment of two bytes or more. -/
theorem Linked.insertFree (h : Linked spans hand (t :: off) s) (hoff : t ∉ off)
    (ht : t ∈ s.allTags) (htype : (s.tags t).type = .free) (hsize : 2 ≤ (s.tags t).size) :
    Linked spans hand off (Vmem.insertFree s t) ∧
      (Vmem.insertFree s t).clobbered = s.clobbered := by
  have hpos : freelistIdx (s.tags t).size ≠ 0 := by
    unfold freelistIdx
    exact (Nat.log_pos (by decide) hsize).ne'
  obtain ⟨i, hi⟩ := Nat.exists_eq_succ_of_ne_zero hpos
  have hins : Vmem.insertFree s t =
      { s with freelists := Function.update s.freelists i (t :: s.freelists i) } := by
    unfold Vmem.insertFree
    rw [hi]
  rw [hins]
  refine ⟨⟨h.allTags, h.spanlist, h.nodup, h.fresh, ?_, ?_, h.hashlistNodup, ?_⟩, rfl⟩
  · intro j
    by_cases hj : j = i
    · subst hj
      simp only [Function.update_self, List.nodup_cons]
      refine ⟨?_, h.freelistNodup j⟩
      rw [h.freelist j t]
      simp
    · simp only [Function.update_of_ne hj]
      exact h.freelistNodup j
  · intro j u
    by_cases hu : u = t
    · subst hu
      have hnot : u ∉ s.freelists j := by
        rw [h.freelist j u]
        simp
      by_cases hj : j = i
      · subst hj
        simp [ht, hoff, htype, hi]
      · simp only [Function.update_of_ne hj, hnot, false_iff, hi, not_and]
        intro _ _ _ he
        exact hj (by omega)
    · have hmem : u ∈ Function.update s.freelists i (t :: s.freelists i) j ↔
          u ∈ s.freelists j := by
        by_cases hj : j = i
        · subst hj
          simp [hu]
        · simp only [Function.update_of_ne hj]
      show u ∈ Function.update s.freelists i (t :: s.freelists i) j ↔ _
      rw [hmem, h.freelist j u, List.mem_cons, not_or]
      tauto
  · intro j u
    refine (h.hashlist j u).trans ?_
    by_cases hu : u = t
    · subst hu
      simp [htype]
    · simp [hu]

/-- **`insert_alloc`.** -/
theorem Linked.insertAlloc (h : Linked spans hand (t :: off) s) (hoff : t ∉ off)
    (ht : t ∈ s.allTags) (htype : (s.tags t).type = .allocated) :
    Linked spans hand off (Vmem.insertAlloc s t) := by
  refine ⟨h.allTags, h.spanlist, h.nodup, h.fresh, h.freelistNodup, ?_, ?_, ?_⟩
  · intro j u
    refine (h.freelist j u).trans ?_
    by_cases hu : u = t
    · subst hu
      show _ ↔ u ∈ s.allTags ∧ u ∉ off ∧ (s.tags u).type = .free ∧ _
      simp [htype]
    · simp [hu, Vmem.insertAlloc]
  · intro j
    simp only [Vmem.insertAlloc]
    by_cases hj : j = hashIndex (s.tags t).start
    · subst hj
      simp only [Function.update_self, List.nodup_cons]
      refine ⟨?_, h.hashlistNodup _⟩
      rw [h.hashlist _ t]
      simp
    · simp only [Function.update_of_ne hj]
      exact h.hashlistNodup j
  · intro j u
    simp only [Vmem.insertAlloc]
    by_cases hu : u = t
    · subst hu
      have hnot : u ∉ s.hashlists j := by
        rw [h.hashlist j u]
        simp
      by_cases hj : j = hashIndex (s.tags u).start
      · subst hj
        simp [ht, hoff, htype]
      · simp only [Function.update_of_ne hj, hnot, false_iff, not_and]
        intro _ _ _ he
        exact hj he.symm
    · have hmem : u ∈ Function.update s.hashlists (hashIndex (s.tags t).start)
          (t :: s.hashlists (hashIndex (s.tags t).start)) j ↔ u ∈ s.hashlists j := by
        by_cases hj : j = hashIndex (s.tags t).start
        · subst hj
          simp [hu]
        · simp only [Function.update_of_ne hj]
      rw [hmem, h.hashlist j u, List.mem_cons, not_or]
      tauto

/-- **A tag enters the queue**, on no list yet. -/
theorem Linked.enqueue {spans' : List Span} {allTags spanlist : List ℕ}
    (h : Linked spans (t :: hand) off s) (hall : allTags = queue spans')
    (hq : (queue spans').Perm (t :: queue spans)) (hspans : spanlist = spans'.map Span.tag) :
    Linked spans' hand (t :: off) { s with
      allTags := allTags
      spanlist := spanlist } := by
  subst hall
  have hnot := h.hand_notMem (List.mem_cons_self)
  have hperm : (hand ++ s.freetags ++ queue spans').Perm
      (t :: hand ++ s.freetags ++ s.allTags) := by
    rw [h.allTags]
    refine (hq.append_left _).trans ?_
    exact List.perm_middle
  -- the others in the queue and on no list stay the same
  have hmem : ∀ u, (u ∈ queue spans' ∧ u ∉ t :: off) ↔ u ∈ s.allTags ∧ u ∉ off := by
    intro u
    rw [hq.mem_iff, ← h.allTags, List.mem_cons, List.mem_cons, not_or]
    constructor
    · rintro ⟨hu, hne, hoff⟩
      exact ⟨hu.resolve_left hne, hoff⟩
    · rintro ⟨hu, hoff⟩
      refine ⟨Or.inr hu, ?_, hoff⟩
      rintro rfl
      exact hnot hu
  refine ⟨rfl, hspans, hperm.nodup_iff.mpr h.nodup, ?_, h.freelistNodup, ?_, h.hashlistNodup, ?_⟩
  · intro u hu
    exact h.fresh u (hperm.mem_iff.mp hu)
  · intro i u
    refine (h.freelist i u).trans ?_
    rw [← and_assoc, ← hmem]
    exact and_assoc
  · intro i u
    refine (h.hashlist i u).trans ?_
    rw [← and_assoc, ← hmem]
    exact and_assoc

/-- **A tag leaves the queue** for the hand. -/
theorem Linked.dequeue {spans' : List Span} {allTags spanlist : List ℕ}
    (h : Linked spans hand (t :: off) s) (hall : allTags = queue spans')
    (hq : (queue spans).Perm (t :: queue spans')) (hoff : t ∉ off)
    (hspans : spanlist = spans'.map Span.tag) :
    Linked spans' (t :: hand) off { s with
      allTags := allTags
      spanlist := spanlist } := by
  subst hall
  have hperm : (t :: hand ++ s.freetags ++ queue spans').Perm
      (hand ++ s.freetags ++ s.allTags) := by
    rw [h.allTags]
    refine List.Perm.trans ?_ (hq.symm.append_left _)
    exact List.perm_middle.symm
  have hnot : t ∉ queue spans' := (List.nodup_cons.mp (hq.nodup_iff.mp h.nodup_queue)).1
  have hmem : ∀ u, (u ∈ s.allTags ∧ u ∉ t :: off) ↔ u ∈ queue spans' ∧ u ∉ off := by
    intro u
    rw [h.allTags, hq.mem_iff, List.mem_cons, List.mem_cons, not_or]
    constructor
    · rintro ⟨hu, hne, hoff'⟩
      exact ⟨hu.resolve_left hne, hoff'⟩
    · rintro ⟨hu, hoff'⟩
      refine ⟨Or.inr hu, ?_, hoff'⟩
      rintro rfl
      exact hnot hu
  refine ⟨rfl, hspans, hperm.nodup_iff.mpr h.nodup, ?_, h.freelistNodup, ?_, h.hashlistNodup, ?_⟩
  · intro u hu
    exact h.fresh u (hperm.mem_iff.mp hu)
  · intro i u
    refine (h.freelist i u).trans ?_
    rw [← and_assoc, hmem]
    exact and_assoc
  · intro i u
    refine (h.hashlist i u).trans ?_
    rw [← and_assoc, hmem]
    exact and_assoc

/-! ## Segments of one span -/

variable {a b : List Span} {g x : ℕ} {l r : List ℕ}

theorem Linked.notMem_before (h : Linked (a ++ ⟨g, l ++ t :: r⟩ :: b) hand off s) :
    t ∉ queue a ++ g :: l := by
  intro ht
  have hnodup := h.nodup_queue
  rw [queue_split] at hnodup
  exact (List.nodup_append.mp hnodup).2.2 t ht t List.mem_cons_self rfl

theorem Linked.allTags_eq (h : Linked (a ++ ⟨g, l ++ t :: r⟩ :: b) hand off s) :
    s.allTags = (queue a ++ g :: l) ++ t :: (r ++ queue b) := by
  rw [h.allTags, queue_split]

theorem Linked.seg_mem (h : Linked (a ++ ⟨g, l ++ t :: r⟩ :: b) hand off s) : t ∈ s.allTags := by
  rw [h.allTags_eq]
  exact List.mem_append_right _ List.mem_cons_self

theorem Linked.hand_ne (h : Linked (a ++ ⟨g, l ++ t :: r⟩ :: b) (x :: hand) off s) : x ≠ t := by
  rintro rfl
  exact h.hand_notMem List.mem_cons_self h.seg_mem

/-- **`TAILQ_INSERT_BEFORE`** a segment. -/
theorem Linked.insertBefore (h : Linked (a ++ ⟨g, l ++ t :: r⟩ :: b) (x :: hand) off s) :
    Linked (a ++ ⟨g, (l ++ [x]) ++ t :: r⟩ :: b) hand (x :: off)
      { s with allTags := SegmentQueue.insertBefore t x s.allTags } := by
  refine h.enqueue ?_ ?_ ?_
  · rw [h.allTags_eq, insertBefore_append h.notMem_before]
    simp
  · rw [queue_split, queue_split]
    have : queue a ++ g :: (l ++ [x]) ++ t :: (r ++ queue b) =
        (queue a ++ g :: l) ++ x :: (t :: (r ++ queue b)) := by simp
    rw [this]
    exact List.perm_middle
  · rw [h.spanlist]
    simp

/-- **`TAILQ_INSERT_AFTER`** a segment. -/
theorem Linked.insertAfter (h : Linked (a ++ ⟨g, l ++ t :: r⟩ :: b) (x :: hand) off s) :
    Linked (a ++ ⟨g, l ++ t :: x :: r⟩ :: b) hand (x :: off)
      { s with allTags := SegmentQueue.insertAfter t x s.allTags } := by
  refine h.enqueue ?_ ?_ ?_
  · rw [h.allTags_eq, insertAfter_append h.notMem_before]
    simp
  · rw [queue_split, queue_split]
    have : queue a ++ g :: l ++ t :: (x :: r ++ queue b) =
        (queue a ++ g :: l ++ [t]) ++ x :: (r ++ queue b) := by simp
    rw [this]
    refine List.perm_middle.trans ?_
    simp
  · rw [h.spanlist]
    simp

/-- **`TAILQ_REMOVE`** of a segment that is on no list. -/
theorem Linked.removeSeg (h : Linked (a ++ ⟨g, l ++ t :: r⟩ :: b) hand (t :: off) s)
    (hoff : t ∉ off) :
    Linked (a ++ ⟨g, l ++ r⟩ :: b) (t :: hand) off { s with allTags := s.allTags.erase t } := by
  refine h.dequeue ?_ ?_ hoff ?_
  · rw [h.allTags_eq, List.erase_append_right _ h.notMem_before, List.erase_cons_head]
    simp
  · rw [queue_split]
    refine List.perm_middle.trans ?_
    simp
  · rw [h.spanlist]
    simp

end Vmem
