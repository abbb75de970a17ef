/-
# Aligned arenas

As long as what comes into an arena is a multiple of the quantum, so are the starts and sizes of
all segments, and no segment of an allocation goes to the list before the first one.
-/
import YakKernel.VmemTags

namespace Vmem

open SegmentQueue

/-! ## Aligned tags -/

/-- The tags describe multiples of `q`. -/
structure Aligned (q : ℕ) (s : Arena) : Prop where
  start : ∀ t, q ∣ (s.tags t).start
  size : ∀ t, q ∣ (s.tags t).size
  lt : ∀ t, (s.tags t).start < 2 ^ 64

variable {q : ℕ} {s s' : Arena} {t addr size minaddr maxaddr at_ : ℕ} {flags : Flags}

theorem aligned_initial : Aligned q initial :=
  ⟨fun _ => Nat.dvd_zero q, fun _ => Nat.dvd_zero q, fun _ => Nat.two_pow_pos 64⟩

theorem Aligned.congr (h : Aligned q s) (htags : s'.tags = s.tags) : Aligned q s' := by
  refine ⟨?_, ?_, ?_⟩
  · rw [htags]
    exact h.start
  · rw [htags]
    exact h.size
  · rw [htags]
    exact h.lt

theorem Aligned.setTag {tag : VmemTag} (h : Aligned q s) (hstart : q ∣ tag.start)
    (hsize : q ∣ tag.size) (hlt : tag.start < 2 ^ 64) : Aligned q (Vmem.setTag s t tag) := by
  refine ⟨?_, ?_, ?_⟩
  all_goals
    intro u
    by_cases hu : u = t
  · subst hu
    simpa [Vmem.setTag] using hstart
  · simpa [Vmem.setTag, hu] using h.start u
  · subst hu
    simpa [Vmem.setTag] using hsize
  · simpa [Vmem.setTag, hu] using h.size u
  · subst hu
    simpa [Vmem.setTag] using hlt
  · simpa [Vmem.setTag, hu] using h.lt u

theorem dvd_wadd {a b : ℕ} (hq : q ∣ 2 ^ 64) (ha : q ∣ a) (hb : q ∣ b) : q ∣ wadd a b :=
  (Nat.dvd_mod_iff hq).mpr (Nat.dvd_add ha hb)

theorem dvd_wsub {a b : ℕ} (hq : q ∣ 2 ^ 64) (ha : q ∣ a) (hb : q ∣ b) : q ∣ wsub a b :=
  (Nat.dvd_mod_iff hq).mpr (Nat.dvd_sub (Nat.dvd_add ha hq) hb)

theorem wadd_lt {a b : ℕ} : wadd a b < 2 ^ 64 := Nat.mod_lt _ (Nat.two_pow_pos 64)

theorem two_le_of_dvd {n : ℕ} (hq : 2 ≤ q) (hn : q ∣ n) (hpos : 0 < n) : 2 ≤ n :=
  hq.trans (Nat.le_of_dvd hpos hn)

theorem clobbered_insertFree (h : 2 ≤ (s.tags t).size) :
    (insertFree s t).clobbered = s.clobbered := by
  have hpos : 0 < freelistIdx (s.tags t).size := Nat.log_pos (by decide) h
  unfold insertFree
  cases hidx : freelistIdx (s.tags t).size with
  | zero => omega
  | succ i => rfl

/-! ## Splitting a segment -/

theorem Aligned.insertFree {u : ℕ} {tag : VmemTag} {queue : List ℕ} (h : Aligned q s)
    (hq : 2 ≤ q) (hstart : q ∣ tag.start) (hsize : q ∣ tag.size) (hlt : tag.start < 2 ^ 64)
    (hpos : 0 < tag.size) :
    Aligned q (Vmem.insertFree { Vmem.setTag s u tag with allTags := queue } u) ∧
      (Vmem.insertFree { Vmem.setTag s u tag with allTags := queue } u).clobbered
        = s.clobbered := by
  constructor
  · exact (h.setTag (t := u) hstart hsize hlt).congr (by simp)
  · rw [clobbered_insertFree]
    · rfl
    · simpa [Vmem.setTag] using two_le_of_dvd hq hsize hpos

theorem Aligned.splitLeft {left : ℕ} (h : Aligned q s) (hq : 2 ≤ q) (hq64 : q ∣ 2 ^ 64)
    (hat : q ∣ at_) (hlt : at_ < 2 ^ 64) :
    Aligned q (Vmem.splitLeft s t at_ left) ∧
      (Vmem.splitLeft s t at_ left).clobbered = s.clobbered := by
  unfold Vmem.splitLeft
  by_cases hcut : (s.tags t).start < at_
  · simp only [if_pos hcut]
    refine h.insertFree hq (h.start t) (dvd_wsub hq64 hat (h.start t)) (h.lt t) ?_
    show 0 < wsub at_ (s.tags t).start
    rw [wsub_of_le hcut.le hlt]
    omega
  · simp only [if_neg hcut]
    exact ⟨h.congr rfl, rfl⟩

theorem Aligned.splitRight {right : ℕ} (h : Aligned q s) (hq : 2 ≤ q) (hq64 : q ∣ 2 ^ 64)
    (hat : q ∣ at_) (hsize : q ∣ size) :
    Aligned q (Vmem.splitRight s t at_ size right) ∧
      (Vmem.splitRight s t at_ size right).clobbered = s.clobbered := by
  unfold Vmem.splitRight
  by_cases hcut : wadd at_ size < wadd (s.tags t).start (s.tags t).size
  · simp only [if_pos hcut]
    have hend := dvd_wadd hq64 hat hsize
    refine h.insertFree hq hend (dvd_wsub hq64 (dvd_wadd hq64 (h.start t) (h.size t)) hend)
      wadd_lt ?_
    show 0 < wsub _ _
    rw [wsub_of_le hcut.le wadd_lt]
    omega
  · simp only [if_neg hcut]
    exact ⟨h.congr rfl, rfl⟩

/-- **`split_seg`** of an aligned segment leaves aligned segments. -/
theorem Aligned.splitSeg {left right : ℕ} (h : Aligned q s) (hq : 2 ≤ q) (hq64 : q ∣ 2 ^ 64)
    (hat : q ∣ at_) (hlt : at_ < 2 ^ 64) (hsize : q ∣ size)
    (hs : Vmem.splitSeg s t at_ size left right = some s') :
    Aligned q s' ∧ s'.clobbered = s.clobbered := by
  unfold Vmem.splitSeg at hs
  simp only [Option.ite_none_left_eq_some, Option.some.injEq] at hs
  obtain ⟨-, rfl⟩ := hs
  have h₀ : Aligned q (listRemove s t) := h.congr rfl
  obtain ⟨h₁, hc₁⟩ := @Aligned.splitLeft q _ t at_ left h₀ hq hq64 hat hlt
  obtain ⟨h₂, hc₂⟩ := @Aligned.splitRight q _ t size at_ right h₁ hq hq64 hat hsize
  refine ⟨(h₂.setTag (t := t) hat hsize hlt).congr rfl, ?_⟩
  exact hc₂.trans hc₁

/-! ## Allocating -/

theorem fitStart_cases {tag : VmemTag} (h : fitStart size minaddr maxaddr tag = some at_) :
    at_ = tag.start ∨ at_ = minaddr := by
  unfold fitStart at h
  simp only [Option.ite_none_left_eq_some, Option.some.injEq] at h
  obtain ⟨-, -, -, rfl⟩ := h
  split_ifs
  · exact Or.inr rfl
  · exact Or.inl rfl

/-- The multiples of the quantum that an allocation is asked with. -/
structure AlignedRequest (q size minaddr : ℕ) : Prop where
  two_le : 2 ≤ q
  dvd_word : q ∣ 2 ^ 64
  size_dvd : q ∣ size
  min_dvd : q ∣ minaddr
  min_lt : minaddr < 2 ^ 64

theorem Aligned.takeSeg {left right best : ℕ} {res : Option ℕ} {s₁ : Arena} (h : Aligned q s)
    (hr : AlignedRequest q size minaddr)
    (hbest : search s' size minaddr maxaddr flags = some (best, at_)) (htags : s'.tags = s.tags)
    (hs : Vmem.takeSeg s size minaddr maxaddr left right best at_ = some (res, s₁)) :
    Aligned q s₁ ∧ s₁.clobbered = s.clobbered ∧ ∀ addr, res = some addr → q ∣ addr := by
  obtain ⟨i, -, -, -, hfit⟩ := search_eq_some hbest
  have hat : q ∣ at_ ∧ at_ < 2 ^ 64 := by
    rcases fitStart_cases hfit with rfl | rfl
    · rw [htags]
      exact ⟨h.start best, h.lt best⟩
    · exact ⟨hr.min_dvd, hr.min_lt⟩
  unfold Vmem.takeSeg at hs
  simp only [Option.ite_none_right_eq_some, Option.map_eq_some_iff, Prod.mk.injEq] at hs
  obtain ⟨-, s₂, hsplit, rfl, rfl⟩ := hs
  have h₀ : Aligned q (listRemove s best) := h.congr rfl
  obtain ⟨h₁, hc⟩ := h₀.splitSeg hr.two_le hr.dvd_word hat.1 hat.2 hr.size_dvd hsplit
  refine ⟨h₁, hc, ?_⟩
  rintro addr ⟨⟩
  exact hat.1

/-- **`vmem_add_locked`** with an aligned span. -/
theorem Aligned.vmemAddLocked {spanType : TagType} {populate : Bool} (h : Aligned q s)
    (hq : 2 ≤ q) (haddr : q ∣ addr) (hlt : addr < 2 ^ 64) (hsize : q ∣ size) (hpos : 0 < size)
    (hs : Vmem.vmemAddLocked s addr size spanType populate = some s') :
    Aligned q s' ∧ s'.clobbered = s.clobbered := by
  unfold Vmem.vmemAddLocked at hs
  simp only [Option.bind_eq_bind, Option.bind_eq_some_iff, Prod.exists, Option.pure_def,
    Option.some.injEq] at hs
  obtain ⟨g, s₁, hg, f, s₂, hf, rfl⟩ := hs
  obtain ⟨htags₁, -, -, -, hbooks₁⟩ := tagAlloc_frame hg
  obtain ⟨htags₂, -, -, -, hbooks₂⟩ := tagAlloc_frame hf
  have h₂ : Aligned q s₂ := h.congr (htags₂.trans htags₁)
  have h₃ : Aligned q (Vmem.setTag (Vmem.setTag s₂ g ⟨spanType, addr, size⟩) f
      ⟨.free, addr, size⟩) := (h₂.setTag haddr hsize hlt).setTag haddr hsize hlt
  have hspan : ∀ (s₃ : Arena) (after : Option ℕ), (insertSpan s₃ after g).tags = s₃.tags ∧
      (insertSpan s₃ after g).clobbered = s₃.clobbered := by
    intro s₃ after
    cases after with
    | none => exact ⟨rfl, rfl⟩
    | some after => exact ⟨rfl, rfl⟩
  constructor
  · refine h₃.congr ?_
    rw [tags_insertFree]
    exact (hspan _ _).1
  · rw [clobbered_insertFree]
    · refine (hspan _ _).2.trans ?_
      exact hbooks₂.clobbered.trans hbooks₁.clobbered
    · simp only [(hspan _ _).1, Vmem.setTag, Function.update_self]
      exact two_le_of_dvd hq hsize hpos

/-- The source does not hand out an import of no bytes: the size rounded up is a word. -/
def ImportsBytes (source : Option ℕ) (size rv : ℕ) : Prop :=
  ∀ k, source = some k → rv ≠ 0 → 0 < alignUp size (2 ^ k)

/-- Rounding up to the quantum of the source keeps multiples of a power of two. -/
theorem dvd_alignUp {j k : ℕ} (hsize : 2 ^ j ∣ size) (hlt : size < 2 ^ 64) :
    2 ^ j ∣ alignUp size (2 ^ k) := by
  unfold alignUp
  by_cases hjk : j ≤ k
  · exact Dvd.dvd.mul_left (Nat.pow_dvd_pow 2 hjk) _
  · -- the size is a multiple of the quantum of the source
    have hk : 2 ^ k ∣ size := (Nat.pow_dvd_pow 2 (by omega)).trans hsize
    have hpow : 0 < 2 ^ k := Nat.two_pow_pos k
    have hup : wadd size (2 ^ k - 1) / 2 ^ k * 2 ^ k = size := by
      rcases Nat.eq_zero_or_pos size with rfl | hpos
      · have hzero : wadd 0 (2 ^ k - 1) / 2 ^ k = 0 := by
          refine Nat.div_eq_of_lt ((Nat.mod_le _ _).trans_lt ?_)
          omega
        rw [hzero, Nat.zero_mul]
      · have hk64 : 2 ^ k ∣ 2 ^ 64 := by
          refine Nat.pow_dvd_pow 2 (Nat.pow_le_pow_iff_right (by decide : 1 < 2) |>.mp ?_)
          exact (Nat.le_of_dvd hpos hk).trans hlt.le
        have hroom : 2 ^ k ≤ 2 ^ 64 - size :=
          Nat.le_of_dvd (by omega) (Nat.dvd_sub hk64 hk)
        rw [wadd_of_lt (by omega)]
        obtain ⟨c, rfl⟩ := hk
        rw [Nat.mul_add_div hpow, Nat.div_eq_of_lt (by omega : 2 ^ k - 1 < 2 ^ k), Nat.add_zero,
          Nat.mul_comm]
    rw [hup]
    exact hsize

/-- **`vmem_xalloc`** with aligned arguments returns an aligned address and keeps the arena
aligned; all it cuts is put on lists of the array. -/
theorem Aligned.vmemXalloc {source : Option ℕ} {j rv : ℕ} {res : Option ℕ}
    (h : Aligned (2 ^ j) s) (hr : AlignedRequest (2 ^ j) size minaddr)
    (hlt : size < 2 ^ 64) (hrvd : 2 ^ j ∣ rv) (hrvlt : rv < 2 ^ 64)
    (himport : ImportsBytes source size rv)
    (hs : Vmem.vmemXalloc source s size minaddr maxaddr flags rv = some (res, s')) :
    Aligned (2 ^ j) s' ∧ s'.clobbered = s.clobbered ∧ ∀ addr, res = some addr → 2 ^ j ∣ addr := by
  have hnone : ∀ addr, (none : Option ℕ) = some addr → 2 ^ j ∣ addr := by
    rintro addr ⟨⟩
  unfold Vmem.vmemXalloc at hs
  by_cases hz : size = 0
  · simp [hz] at hs
  simp only [hz, if_false, Option.bind_eq_bind, Option.bind_eq_some_iff, Prod.exists] at hs
  obtain ⟨left, s₁, hleft, right, s₂, hright, hs⟩ := hs
  obtain ⟨htags₁, -, -, -, hbooks₁⟩ := tagAlloc_frame hleft
  obtain ⟨htags₂, -, -, -, hbooks₂⟩ := tagAlloc_frame hright
  have h₂ : Aligned (2 ^ j) s₂ := h.congr (htags₂.trans htags₁)
  have hc₂ : s₂.clobbered = s.clobbered := hbooks₂.clobbered.trans hbooks₁.clobbered
  cases hsearch : search s₂ size minaddr maxaddr flags with
  | some found =>
    simp only [hsearch] at hs
    obtain ⟨h', hc', haddr⟩ := h₂.takeSeg hr hsearch rfl hs
    exact ⟨h', hc'.trans hc₂, haddr⟩
  | none =>
    simp only [hsearch] at hs
    cases hk : source with
    | none =>
      subst hk
      cases hs
      exact ⟨h₂, hc₂, hnone⟩
    | some k =>
      subst hk
      simp only at hs
      split_ifs at hs with hbounds hrv
      · cases hs
        exact ⟨h₂, hc₂, hnone⟩
      · rw [Option.bind_eq_some_iff] at hs
        obtain ⟨s₃, hadd, hs⟩ := hs
        have h₂' : Aligned (2 ^ j)
            { s₂ with imports := (rv, alignUp size (2 ^ k)) :: s₂.imports } := h₂.congr rfl
        obtain ⟨h₃, hc₃⟩ := h₂'.vmemAddLocked hr.two_le hrvd hrvlt
          (dvd_alignUp hr.size_dvd hlt) (himport k rfl hrv) hadd
        cases hagain : search s₃ size minaddr maxaddr flags with
        | some found =>
          simp only [hagain] at hs
          obtain ⟨h', hc', haddr⟩ := h₃.takeSeg hr hagain rfl hs
          exact ⟨h', hc'.trans (hc₃.trans hc₂), haddr⟩
        | none =>
          simp only [hagain] at hs
          cases hs
          exact ⟨h₃, hc₃.trans hc₂, hnone⟩

/-! ## Freeing -/

theorem Aligned.mergeLeft {left : ℕ} (h : Aligned q s) (hq : q ∣ 2 ^ 64) :
    Aligned q (Vmem.mergeLeft s t left).2 := by
  unfold Vmem.mergeLeft
  split_ifs
  · have h₁ : Aligned q (listRemove { s with allTags := s.allTags.erase t } left) := h.congr rfl
    have h₂ := @Aligned.setTag q _ left
      { s.tags left with size := wadd (s.tags left).size (s.tags t).size } h₁ (h.start left)
      (dvd_wadd hq (h.size left) (h.size t)) (h.lt left)
    exact h₂.congr rfl
  · exact h

theorem Aligned.mergeRight {right : Option ℕ} (h : Aligned q s) (hq : q ∣ 2 ^ 64) :
    Aligned q (Vmem.mergeRight s t right).2 := by
  unfold Vmem.mergeRight
  cases right with
  | none => exact h
  | some right =>
    simp only
    split_ifs
    · have h₁ : Aligned q (listRemove { s with allTags := s.allTags.erase t } right) :=
        h.congr rfl
      have h₂ := @Aligned.setTag q _ right
        ⟨.free, (s.tags t).start, wadd (s.tags right).size (s.tags t).size⟩ h₁ (h.start t)
        (dvd_wadd hq (h.size right) (h.size t)) (h.lt t)
      exact h₂.congr rfl
    · exact h

theorem Aligned.finishFree {left : ℕ} (h : Aligned q s)
    (hs : Vmem.finishFree s t left = some s') : Aligned q s' := by
  unfold Vmem.finishFree at hs
  split_ifs at hs
  · cases hn : nextOf t s.allTags with
    | none =>
      simp only [hn, Option.some.injEq] at hs
      subst hs
      exact h.congr rfl
    | some right =>
      simp only [hn, Option.ite_none_right_eq_some, Option.some.injEq] at hs
      obtain ⟨-, rfl⟩ := hs
      exact h.congr rfl
  · cases hs
    exact h.congr tags_insertFree

/-- **`vmem_xfree`** merges aligned segments. -/
theorem Aligned.vmemXfree (h : Aligned q s) (hq : q ∣ 2 ^ 64)
    (hs : Vmem.vmemXfree s addr size = some s') : Aligned q s' := by
  unfold Vmem.vmemXfree at hs
  by_cases hz : addr = 0 ∨ size = 0
  · simp [hz] at hs
  simp only [hz, if_false, Option.bind_eq_bind, Option.bind_eq_some_iff] at hs
  obtain ⟨u, -, left, -, left', -, hfinish⟩ := hs
  have hl : Aligned q (listRemove s u) := h.congr rfl
  have h₀ := @Aligned.setTag q _ u { (listRemove s u).tags u with type := .free } hl
    (hl.start u) (hl.size u) (hl.lt u)
  exact ((h₀.mergeLeft hq).mergeRight hq).finishFree hfinish

end Vmem
