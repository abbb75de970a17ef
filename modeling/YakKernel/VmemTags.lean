/-
# The tags of a failed allocation

`vmem_xalloc` takes two tags before it searches.  The allocation that it makes gives back the
one it does not need; when it returns `NULL` it gives back neither, and both are lost to the
arena and to the pool that all arenas share.
-/
import YakKernel.VmemFit

namespace Vmem

open SegmentQueue

variable {s s' : Arena} {size minaddr maxaddr : ℕ} {flags : Flags} {t u : ℕ}

/-! ## Free tags -/

/-- A tag that can still be taken: the arena or the shared pool has it. -/
def FreeTag (s : Arena) (t : ℕ) : Prop := t ∈ s.freetags ∨ s.spare ≤ t

/-- A tag that is free or in the segment queue. -/
def KnownTag (s : Arena) (t : ℕ) : Prop := FreeTag s t ∨ t ∈ s.allTags

/-- The tags of the arena are not the pool's, and each is there once. -/
structure TagsApart (s : Arena) : Prop where
  nodup : s.freetags.Nodup
  lt_spare : ∀ t ∈ s.freetags, t < s.spare

theorem Sound.tagsApart {spans : List Span} (h : Sound spans s) : TagsApart s where
  nodup := (List.nodup_append.mp (List.nodup_append.mp h.core.linked.nodup).1).2.1
  lt_spare := fun t ht => h.core.linked.fresh t (by simp [ht])

theorem freeTag_tagRefill : FreeTag (tagRefill s) t ↔ FreeTag s t := by
  unfold FreeTag tagRefill
  simp only [List.mem_append, List.mem_reverse, List.mem_map, List.mem_range]
  constructor
  · rintro ((⟨i, -, rfl⟩ | h) | h)
    · exact Or.inr (Nat.le_add_right _ _)
    · exact Or.inl h
    · exact Or.inr ((Nat.le_add_right _ _).trans h)
  · rintro (h | h)
    · exact Or.inl (Or.inr h)
    · by_cases hlt : t < s.spare + (5 - s.freetags.length)
      · exact Or.inl (Or.inl ⟨t - s.spare, by omega, by omega⟩)
      · exact Or.inr (Nat.not_lt.mp hlt)

theorem TagsApart.tagRefill (h : TagsApart s) : TagsApart (Vmem.tagRefill s) := by
  have hnew : ∀ t ∈ ((List.range (5 - s.freetags.length)).map (s.spare + ·)).reverse,
      s.spare ≤ t ∧ t < s.spare + (5 - s.freetags.length) := by
    intro t ht
    rw [List.mem_reverse, List.mem_map] at ht
    obtain ⟨i, hi, rfl⟩ := ht
    rw [List.mem_range] at hi
    omega
  constructor
  · refine List.nodup_append.mpr ⟨?_, h.nodup, ?_⟩
    · rw [List.nodup_reverse]
      exact List.nodup_range.map (fun i j hij => Nat.add_left_cancel hij)
    · rintro t ht u hu rfl
      have h₁ := (hnew t ht).1
      have h₂ := h.lt_spare t hu
      omega
  · intro t ht
    show t < s.spare + (5 - s.freetags.length)
    rcases List.mem_append.mp ht with ht | ht
    · exact (hnew t ht).2
    · have hlt := h.lt_spare t ht
      omega

/-- **`tag_alloc`** takes one tag and no other. -/
theorem TagsApart.tagAlloc {populate : Bool} (h : TagsApart s)
    (hs : Vmem.tagAlloc s populate = some (t, s')) :
    TagsApart s' ∧ FreeTag s t ∧ ∀ u, FreeTag s' u ↔ FreeTag s u ∧ u ≠ t := by
  unfold Vmem.tagAlloc at hs
  have hr : TagsApart (if populate then s else Vmem.tagRefill s) ∧
      ∀ u, FreeTag (if populate then s else Vmem.tagRefill s) u ↔ FreeTag s u := by
    split_ifs
    · exact ⟨h, fun u => Iff.rfl⟩
    · exact ⟨h.tagRefill, fun u => freeTag_tagRefill⟩
  generalize (if populate then s else Vmem.tagRefill s) = s₁ at hs hr
  obtain ⟨h₁, hfree⟩ := hr
  cases htags : s₁.freetags with
  | nil => simp [htags] at hs
  | cons v vs =>
    simp only [htags, Option.some.injEq, Prod.mk.injEq] at hs
    obtain ⟨rfl, rfl⟩ := hs
    have hnodup := h₁.nodup
    have hlt := h₁.lt_spare
    rw [htags] at hnodup hlt
    obtain ⟨hnot, hvs⟩ := List.nodup_cons.mp hnodup
    refine ⟨⟨hvs, fun u hu => hlt u (List.mem_cons_of_mem v hu)⟩, ?_, ?_⟩
    · rw [← hfree, FreeTag, htags]
      exact Or.inl List.mem_cons_self
    · intro u
      rw [← hfree, FreeTag, FreeTag, htags, List.mem_cons]
      constructor
      · rintro (hu | hu)
        · refine ⟨Or.inl (Or.inr hu), ?_⟩
          rintro rfl
          exact hnot hu
        · refine ⟨Or.inr hu, ?_⟩
          rintro rfl
          exact absurd (hlt u List.mem_cons_self) (Nat.not_lt.mpr hu)
      · rintro ⟨(rfl | hu) | hu, hne⟩
        · exact absurd rfl hne
        · exact Or.inl hu
        · exact Or.inr hu

theorem tagAlloc_hashlists {populate : Bool} (hs : tagAlloc s populate = some (t, s')) :
    s'.hashlists = s.hashlists := by
  unfold tagAlloc at hs
  have hr : (if populate then s else tagRefill s).hashlists = s.hashlists := by
    split_ifs <;> rfl
  generalize (if populate then s else tagRefill s) = s₁ at hs hr
  cases htags : s₁.freetags with
  | nil => simp [htags] at hs
  | cons v vs =>
    simp only [htags, Option.some.injEq, Prod.mk.injEq] at hs
    obtain ⟨-, rfl⟩ := hs
    exact hr

theorem TagsApart.vmemAddLocked {addr len : ℕ} {spanType : TagType} {populate : Bool}
    (h : TagsApart s) (hs : Vmem.vmemAddLocked s addr len spanType populate = some s')
    (hu : FreeTag s' u) : FreeTag s u := by
  unfold Vmem.vmemAddLocked at hs
  simp only [Option.bind_eq_bind, Option.bind_eq_some_iff, Prod.exists, Option.pure_def,
    Option.some.injEq] at hs
  obtain ⟨g, s₁, hg, f, s₂, hf, hs⟩ := hs
  obtain ⟨h₁, -, hfree₁⟩ := h.tagAlloc hg
  obtain ⟨-, -, hfree₂⟩ := h₁.tagAlloc hf
  have hpool : s'.freetags = s₂.freetags ∧ s'.spare = s₂.spare := by
    rw [← hs]
    unfold insertFree insertSpan
    constructor <;>
    · split <;> split <;> rfl
  have hu₂ : FreeTag s₂ u := by
    rw [FreeTag, hpool.1, hpool.2] at hu
    exact hu
  exact ((hfree₁ u).mp ((hfree₂ u).mp hu₂).1).1

/-! ## Returning `NULL` -/

/-- What a failed allocation should leave: the queue and the lists as they were, and every tag
still free that was. -/
structure LeavesIntact (s s' : Arena) : Prop where
  allTags : s'.allTags = s.allTags
  spanlist : s'.spanlist = s.spanlist
  freelists : s'.freelists = s.freelists
  hashlists : s'.hashlists = s.hashlists
  freeTags : ∀ t, FreeTag s' t ↔ FreeTag s t
  known : ∀ t, KnownTag s t → KnownTag s' t

variable {source : Option ℕ} {rv : ℕ}

theorem takeSeg_ne_null {left right best at_ : ℕ} :
    takeSeg s size minaddr maxaddr left right best at_ ≠ some (none, s') := by
  unfold takeSeg
  split
  · intro h
    obtain ⟨s₁, -, hres⟩ := Option.map_eq_some_iff.mp h
    cases hres
  · simp

/-- **The ways to return `NULL`.**  The two tags were taken; then nothing happened, or a span was
imported that does not serve the request either. -/
theorem vmemXalloc_null_cases
    (hs : vmemXalloc source s size minaddr maxaddr flags rv = some (none, s')) :
    ∃ left right s₁ s₂, tagAlloc s flags.populate = some (left, s₁) ∧
      tagAlloc s₁ flags.populate = some (right, s₂) ∧
      (s' = s₂ ∨ rv ≠ 0 ∧ ∃ k imports, source = some k ∧
        vmemAddLocked { s₂ with imports := imports } rv (alignUp size (2 ^ k)) .spanImported
          flags.populate = some s') := by
  unfold vmemXalloc at hs
  by_cases hz : size = 0
  · simp [hz] at hs
  simp only [hz, if_false, Option.bind_eq_bind, Option.bind_eq_some_iff, Prod.exists] at hs
  obtain ⟨left, s₁, hleft, right, s₂, hright, hs⟩ := hs
  refine ⟨left, right, s₁, s₂, hleft, hright, ?_⟩
  cases hsearch : search s₂ size minaddr maxaddr flags with
  | some found =>
    simp only [hsearch] at hs
    exact absurd hs takeSeg_ne_null
  | none =>
    simp only [hsearch] at hs
    cases source with
    | none =>
      cases hs
      exact Or.inl rfl
    | some k =>
      simp only at hs
      split_ifs at hs with hbounds hrv
      · cases hs
        exact Or.inl rfl
      · rw [Option.bind_eq_some_iff] at hs
        obtain ⟨s₃, hadd, hs⟩ := hs
        cases hagain : search s₃ size minaddr maxaddr flags with
        | some found =>
          simp only [hagain] at hs
          exact absurd hs takeSeg_ne_null
        | none =>
          simp only [hagain] at hs
          cases hs
          exact Or.inr ⟨hrv, k, _, rfl, hadd⟩

/-- **Two tags are lost.** -/
theorem TagsApart.vmemXalloc_null (h : TagsApart s)
    (hs : vmemXalloc source s size minaddr maxaddr flags rv = some (none, s')) :
    ∃ left right, left ≠ right ∧ FreeTag s left ∧ FreeTag s right ∧
      ¬ FreeTag s' left ∧ ¬ FreeTag s' right := by
  obtain ⟨left, right, s₁, s₂, hleft, hright, hend⟩ := vmemXalloc_null_cases hs
  obtain ⟨h₁, hfl, hfree₁⟩ := h.tagAlloc hleft
  obtain ⟨h₂, hfr, hfree₂⟩ := h₁.tagAlloc hright
  have hlr := (hfree₁ right).mp hfr
  have hback : ∀ u, FreeTag s' u → FreeTag s₂ u := by
    intro u hu
    rcases hend with rfl | ⟨-, k, imports, -, hadd⟩
    · exact hu
    · have h₂' : TagsApart { s₂ with imports := imports } := ⟨h₂.nodup, h₂.lt_spare⟩
      exact h₂'.vmemAddLocked hadd hu
  refine ⟨left, right, hlr.2.symm, hfl, hlr.1, ?_, ?_⟩
  · intro hu
    exact ((hfree₁ left).mp ((hfree₂ left).mp (hback left hu)).1).2 rfl
  · intro hu
    exact ((hfree₂ right).mp (hback right hu)).2 rfl

/-- Without an import the queue and the lists are as before, and the two tags are in neither of
them nor in the pools. -/
theorem Sound.vmemXalloc_null {spans : List Span} (h : Sound spans s)
    (hno : source = none ∨ rv = 0)
    (hs : Vmem.vmemXalloc source s size minaddr maxaddr flags rv = some (none, s')) :
    s'.allTags = s.allTags ∧ s'.spanlist = s.spanlist ∧ s'.freelists = s.freelists ∧
      s'.hashlists = s.hashlists ∧
      ∃ left right, left ≠ right ∧ KnownTag s left ∧ KnownTag s right ∧
        ∀ t, KnownTag s' t ↔ KnownTag s t ∧ t ≠ left ∧ t ≠ right := by
  obtain ⟨left, right, s₁, s₂, hleft, hright, hend⟩ := vmemXalloc_null_cases hs
  obtain ⟨h₁, hfl, hfree₁⟩ := h.tagsApart.tagAlloc hleft
  obtain ⟨-, hfr, hfree₂⟩ := h₁.tagAlloc hright
  have hlr := (hfree₁ right).mp hfr
  have heq : s' = s₂ := by
    rcases hend with heq | ⟨hrv, k, imports, hk, -⟩
    · exact heq
    · rcases hno with hno | hno
      · rw [hk] at hno
        cases hno
      · exact absurd hno hrv
  subst heq
  obtain ⟨-, hf₁, hsp₁, hall₁, -⟩ := tagAlloc_frame hleft
  obtain ⟨-, hf₂, hsp₂, hall₂, -⟩ := tagAlloc_frame hright
  have hall := hall₂.trans hall₁
  have hcore := (h.core.tagAlloc hleft).tagAlloc hright
  have hleftq : left ∉ s.allTags := by
    have hnot := hcore.linked.hand_notMem (t := left) (by simp)
    rwa [hall] at hnot
  have hrightq : right ∉ s.allTags := by
    have hnot := hcore.linked.hand_notMem (t := right) (by simp)
    rwa [hall] at hnot
  refine ⟨hall, hsp₂.trans hsp₁, hf₂.trans hf₁, ?_, left, right, hlr.2.symm, Or.inl hfl,
    Or.inl hlr.1, ?_⟩
  · rw [tagAlloc_hashlists hright, tagAlloc_hashlists hleft]
  · intro t
    rw [KnownTag, KnownTag, hall, hfree₂, hfree₁]
    constructor
    · rintro (⟨⟨hf, hl⟩, hr⟩ | hq)
      · exact ⟨Or.inl hf, hl, hr⟩
      · refine ⟨Or.inr hq, ?_, ?_⟩
        · rintro rfl
          exact hleftq hq
        · rintro rfl
          exact hrightq hq
    · rintro ⟨hf | hq, hl, hr⟩
      · exact Or.inl ⟨⟨hf, hl⟩, hr⟩
      · exact Or.inr hq

/-- **Every `NULL` from `vmem_xalloc`** costs the arena two tags. -/
theorem vmemXalloc_null_not_intact {spans : List Span} (h : Sound spans s)
    (hs : vmemXalloc source s size minaddr maxaddr flags rv = some (none, s')) :
    ¬ LeavesIntact s s' := by
  intro hintact
  obtain ⟨left, -, -, hfree, -, hlost, -⟩ := h.tagsApart.vmemXalloc_null hs
  exact hlost ((hintact.freeTags left).mpr hfree)

theorem null_run : ∃ s', vmemXalloc (some 12) initial 64 0 0 ⟨false, true, false⟩ 0 =
    some (none, s') := by
  have hrun : ((vmemXalloc (some 12) initial 64 0 0 ⟨false, true, false⟩ 0).map Prod.fst) =
      some none := by decide +kernel
  obtain ⟨⟨res, s'⟩, hs, hres⟩ := Option.map_eq_some_iff.mp hrun
  simp only at hres
  subst hres
  exact ⟨s', hs⟩

theorem vmemXalloc_null_not_intact_refused : ∃ s',
    vmemXalloc (some 12) initial 64 0 0 ⟨false, true, false⟩ 0 = some (none, s') ∧
      ¬ LeavesIntact initial s' := by
  obtain ⟨s', hs⟩ := null_run
  exact ⟨s', hs, vmemXalloc_null_not_intact sound_initial hs⟩

/-- Tags that were known are not any more. -/
theorem null_loses_tags : ∃ s', vmemXalloc (some 12) initial 64 0 0 ⟨false, true, false⟩ 0 =
    some (none, s') ∧ ¬ (∀ t, KnownTag initial t → KnownTag s' t) := by
  obtain ⟨s', hs⟩ := null_run
  refine ⟨s', hs, fun hknown => ?_⟩
  obtain ⟨-, -, -, -, left, right, -, hleft, -, hiff⟩ :=
    sound_initial.vmemXalloc_null (Or.inr rfl) hs
  exact ((hiff left).mp (hknown left hleft)).2.1 rfl

end Vmem
