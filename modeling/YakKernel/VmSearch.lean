/-
# The search for a free range

`alloc_map_range_locked` without `VM_MAP_FIXED` goes from gap to gap, from the hint upwards and
once more from the bottom.  A place is a range inside the bounds that no entry touches; the
search is compared with the existence of one.
-/
import YakKernel.VmCarve

namespace Vm

open Prog

/-! ## Places -/

/-- The entries of a map as the search needs them: in key order, not empty, disjoint, and
inside the bounds. -/
structure Laid (tree : List MapEntry) (minAddr maxAddr : ℕ) : Prop where
  sorted : KeyedTree.Sorted key tree
  lt : ∀ e ∈ tree, e.base < e.endAddr
  apart : ∀ e ∈ tree, ∀ e' ∈ tree, e.base < e'.base → e.endAddr ≤ e'.base
  min_le : ∀ e ∈ tree, minAddr ≤ e.base
  le_max : ∀ e ∈ tree, e.endAddr ≤ maxAddr

/-- `[b, b + length)` is inside the bounds, and no entry touches it. -/
structure Fits (tree : List MapEntry) (minAddr maxAddr length b : ℕ) : Prop where
  min_le : minAddr ≤ b
  le_max : b + length ≤ maxAddr
  free : ∀ e ∈ tree, e.endAddr ≤ b ∨ b + length ≤ e.base

variable {tree : List MapEntry} {minAddr maxAddr hint length base b fuel : ℕ} {n : MapEntry}
  {prev : Option MapEntry} {wrapped : Bool}

theorem WellFormed.laid (h : WellFormed tree)
    (hin : ∀ e ∈ tree, minAddr ≤ e.base ∧ e.endAddr ≤ maxAddr) : Laid tree minAddr maxAddr where
  sorted := h.sorted
  lt := fun e he => (h.sound e he).lt
  apart := by
    intro e he e' he' hlt
    exact h.endAddr_le he he' hlt
  min_le := fun e he => (hin e he).1
  le_max := fun e he => (hin e he).2

/-! ## The loop -/

/-- Where a gap starts for the search: behind `prev`, and not before `base`. -/
def gapStart (minAddr base : ℕ) (prev : Option MapEntry) : ℕ :=
  max ((prev.map MapEntry.endAddr).getD minAddr) base

/-- The gap before `n`: everything below `n` lies before it. -/
structure Gap (tree : List MapEntry) (minAddr base : ℕ) (prev : Option MapEntry) (n : MapEntry) :
    Prop where
  mem : n ∈ tree
  below : ∀ e ∈ tree, e.base < n.base → e.endAddr ≤ gapStart minAddr base prev
  start_le : gapStart minAddr base prev ≤ n.base
  min_le : minAddr ≤ gapStart minAddr base prev

/-- The rounds that are left: one for each entry from `n` on, and one more pass over all of
them when the search may still wrap. -/
def roundsLeft (tree : List MapEntry) (hint : ℕ) (wrapped : Bool) (n : MapEntry) : ℕ :=
  KeyedTree.countFrom key tree n.base + if hint = 0 ∨ wrapped then 0 else tree.length

theorem Gap.fits (h : Gap tree minAddr base prev n) (hl : Laid tree minAddr maxAddr)
    (hroom : gapStart minAddr base prev + length ≤ n.base) :
    Fits tree minAddr maxAddr length (gapStart minAddr base prev) := by
  have hn := hl.lt n h.mem
  refine ⟨h.min_le, ?_, ?_⟩
  · have := hl.le_max n h.mem
    omega
  · intro e he
    rcases lt_or_ge e.base n.base with hlt | hge
    · exact Or.inl (h.below e he hlt)
    · right
      omega

theorem Gap.next (h : Gap tree minAddr base prev n) (hl : Laid tree minAddr maxAddr)
    {n' : MapEntry} (hn : rbtNext tree n = some n') : Gap tree minAddr base (some n) n' := by
  obtain ⟨hmem, hlt, hmin⟩ := hl.sorted.next_eq_some_iff.mp hn
  simp only [key] at hlt hmin
  have hend := hl.apart n h.mem n' hmem hlt
  have hnlt := hl.lt n h.mem
  have hstart := h.start_le
  have hle := h.min_le
  have hbase : base ≤ gapStart minAddr base prev := le_max_right _ _
  have hgap : gapStart minAddr base (some n) = n.endAddr := by
    show max n.endAddr base = n.endAddr
    omega
  refine ⟨hmem, ?_, ?_, ?_⟩
  · intro e he hebase
    rw [hgap]
    rcases lt_trichotomy e.base n.base with hlt' | heq | hgt
    · have := hl.apart e he n h.mem hlt'
      omega
    · rw [hl.sorted.eq_of_key he h.mem heq]
    · exact absurd hebase (hmin e he hgt).not_gt
  · rw [hgap]
    exact hend
  · rw [hgap]
    omega

/-- A place that does not start before a gap that is too short starts behind the entry
after it. -/
theorem Gap.beyond (h : Gap tree minAddr base prev n)
    (hshort : ¬ gapStart minAddr base prev + length ≤ n.base)
    (hb : Fits tree minAddr maxAddr length b) (hle : gapStart minAddr base prev ≤ b) :
    n.endAddr ≤ b := by
  rcases hb.free n h.mem with hfree | hfree
  · exact hfree
  · omega

theorem Laid.fits_last (hl : Laid tree minAddr maxAddr) (hn : n ∈ tree)
    (hlast : rbtNext tree n = none) (hroom : n.endAddr + length ≤ maxAddr) :
    Fits tree minAddr maxAddr length n.endAddr := by
  have hmax := KeyedTree.next_eq_none_iff.mp hlast
  have hlt := hl.lt n hn
  have hmin := hl.min_le n hn
  refine ⟨by omega, hroom, ?_⟩
  intro e he
  left
  rcases (hmax e he).lt_or_eq with h | h
  · have := hl.apart e he n hn h
    omega
  · rw [hl.sorted.eq_of_key he hn h]

theorem Laid.gap_first (hl : Laid tree minAddr maxAddr) (hn : tree.head? = some n) :
    Gap tree minAddr minAddr none n ∧ ∀ e ∈ tree, n.base ≤ e.base := by
  obtain ⟨l, rfl⟩ : ∃ l, tree = n :: l := by
    cases tree with
    | nil => simp at hn
    | cons a l =>
      rw [List.head?_cons, Option.some_inj] at hn
      exact ⟨l, by rw [hn]⟩
  have hmin : ∀ e ∈ n :: l, n.base ≤ e.base := by
    intro e he
    rcases List.mem_cons.mp he with rfl | he
    · exact le_rfl
    · exact ((List.pairwise_cons.mp hl.sorted).1 e he).le
  have hgap : gapStart minAddr minAddr none = minAddr := max_self minAddr
  refine ⟨⟨List.mem_cons_self, ?_, ?_, ?_⟩, hmin⟩
  · intro e he hlt
    exact absurd hlt (hmin e he).not_gt
  · rw [hgap]
    exact hl.min_le n List.mem_cons_self
  · rw [hgap]

/-- A right answer of the search: a place, or nothing, and then there is no place. -/
structure Answer (tree : List MapEntry) (minAddr maxAddr length : ℕ) (r : Option ℕ) : Prop where
  fits : ∀ b, r = some b → Fits tree minAddr maxAddr length b
  nospace : r = none → ∀ b, ¬ Fits tree minAddr maxAddr length b

theorem Answer.found (h : Fits tree minAddr maxAddr length b) :
    Answer tree minAddr maxAddr length (some b) := by
  refine ⟨?_, by simp⟩
  rintro b' ⟨⟩
  exact h

/-- **What the loop finds**, from a gap that is before an entry: a right answer, and the start
of the gap if that is a place. -/
theorem findGap_spec (hl : Laid tree minAddr maxAddr) (hmax : maxAddr < 2 ^ 64)
    (hgap : Gap tree minAddr base prev n)
    (hall : hint = 0 ∨ wrapped = true →
      ∀ b, Fits tree minAddr maxAddr length b → gapStart minAddr base prev ≤ b)
    (hfuel : roundsLeft tree hint wrapped n ≤ fuel) :
    ∃ r, findGap tree minAddr maxAddr hint length fuel prev (some n) base wrapped = .ok r ∧
      Answer tree minAddr maxAddr length r ∧
      (gapStart minAddr base prev + length ≤ n.base → r = some (gapStart minAddr base prev)) := by
  induction fuel generalizing prev n base wrapped with
  | zero =>
    have hpos : 0 < KeyedTree.countFrom key tree n.base :=
      List.countP_pos_iff.mpr ⟨n, hgap.mem, by simp⟩
    unfold roundsLeft at hfuel
    omega
  | succ fuel ih =>
    have hstart := hgap.start_le
    have hnlt := hl.lt n hgap.mem
    have hnmax := hl.le_max n hgap.mem
    have hroom_iff : length ≤ wsub n.base (gapStart minAddr base prev) ↔
        gapStart minAddr base prev + length ≤ n.base := by
      unfold wsub
      omega
    simp only [findGap, Option.map_some, Option.getD_some]
    rw [← gapStart]
    by_cases hroom : gapStart minAddr base prev + length ≤ n.base
    · rw [if_pos (hroom_iff.mpr hroom)]
      exact ⟨_, rfl, .found (hgap.fits hl hroom), fun _ => rfl⟩
    rw [if_neg (mt hroom_iff.mp hroom)]
    cases hnext : rbtNext tree n with
    | some n' =>
      have hgap' := hgap.next hl hnext
      have hlt : n.base < n'.base := (hl.sorted.next_eq_some_iff.mp hnext).2.1
      have hcount : KeyedTree.countFrom key tree n'.base < KeyedTree.countFrom key tree n.base :=
        KeyedTree.countFrom_lt hgap.mem hlt
      have hbase : base ≤ gapStart minAddr base prev := le_max_right _ _
      have hstart' : gapStart minAddr base (some n) = n.endAddr := by
        show max n.endAddr base = n.endAddr
        omega
      obtain ⟨r, hr, hanswer, -⟩ := @ih _ _ _ wrapped hgap' (by
          intro hw b hb
          rw [hstart']
          exact hgap.beyond hroom hb (hall hw b hb)) (by
          unfold roundsLeft at hfuel ⊢
          omega)
      exact ⟨r, hr, hanswer, fun h => absurd h hroom⟩
    | none =>
      by_cases hlast : n.endAddr + length ≤ maxAddr
      · simp only [if_pos hlast]
        exact ⟨_, rfl, .found (hl.fits_last hgap.mem hnext hlast), fun h => absurd h hroom⟩
      · simp only [if_neg hlast]
        by_cases hw : hint = 0 ∨ wrapped = true
        · rw [if_pos hw]
          refine ⟨none, rfl, ⟨by simp, ?_⟩, fun h => absurd h hroom⟩
          intro _ b hb
          have hbeyond := hgap.beyond hroom hb (hall hw b hb)
          have := hb.le_max
          omega
        · rw [if_neg hw]
          -- from the bottom, with one pass left
          obtain ⟨f, hf⟩ : ∃ f, tree.head? = some f := by
            cases tree with
            | nil => exact absurd hgap.mem List.not_mem_nil
            | cons a l => exact ⟨a, rfl⟩
          obtain ⟨hgap', -⟩ := hl.gap_first hf
          have hmin : gapStart minAddr minAddr none = minAddr := max_self minAddr
          have hpos : 0 < KeyedTree.countFrom key tree n.base :=
            List.countP_pos_iff.mpr ⟨n, hgap.mem, by simp⟩
          obtain ⟨r, hr, hanswer, -⟩ := @ih _ _ _ true hgap' (by
              intro _ b hb
              rw [hmin]
              exact hb.min_le) (by
              have := @KeyedTree.countFrom_le _ _ _ key tree f.base
              unfold roundsLeft at hfuel ⊢
              rw [if_neg hw] at hfuel
              simp only [or_true, if_true]
              omega)
          rw [hf]
          exact ⟨r, hr, hanswer, fun h => absurd h hroom⟩

/-! ## The search -/

/-- The hint moved into the bounds. -/
def clampHint (minAddr maxAddr hint : ℕ) : ℕ := min maxAddr (max minAddr hint)

/-- What the search is for: a right answer, and the hint itself if that is a place. -/
def Serves (tree : List MapEntry) (minAddr maxAddr hint length : ℕ)
    (x : Except Failure (Option ℕ)) : Prop :=
  ∃ r, x = .ok r ∧ Answer tree minAddr maxAddr length r ∧
    (Fits tree minAddr maxAddr length hint → r = some hint)

theorem not_serves_error {e : Failure} : ¬ Serves tree minAddr maxAddr hint length (.error e) := by
  rintro ⟨r, ⟨⟩, -⟩

/-- The maps that are not empty on which the search does what it is for. -/
structure Searchable (tree : List MapEntry) (minAddr maxAddr hint length : ℕ) : Prop where
  /-- Some entry starts at the hint or above. -/
  above : ∃ e ∈ tree, clampHint minAddr maxAddr hint ≤ e.base
  /-- A single entry leaves room below or above it. -/
  alone : ∀ e, tree = [e] → minAddr + length ≤ e.base ∨ e.endAddr + length ≤ maxAddr
  /-- The hint is not a place below every entry, or it is the lowest of them. -/
  before : ¬ (minAddr < hint ∧ ∀ e ∈ tree, hint + length ≤ e.base)

theorem Laid.eq_singleton (hl : Laid tree minAddr maxAddr) (hn : n ∈ tree)
    (hlast : rbtNext tree n = none) (hfirst : rbtPrev tree n = none) : tree = [n] := by
  have hall : ∀ e ∈ tree, e = n := by
    intro e he
    have h1 := KeyedTree.next_eq_none_iff.mp hlast e he
    have h2 := KeyedTree.prev_eq_none_iff.mp hfirst e he
    exact hl.sorted.eq_of_key he hn (le_antisymm h1 h2)
  cases tree with
  | nil => exact absurd hn List.not_mem_nil
  | cons a l =>
    cases l with
    | nil => rw [hall a List.mem_cons_self]
    | cons a' l =>
      have hlt := (List.pairwise_cons.mp hl.sorted).1 a' List.mem_cons_self
      rw [hall a List.mem_cons_self, hall a' (List.mem_cons_of_mem _ List.mem_cons_self)] at hlt
      exact absurd hlt (lt_irrefl _)

theorem clampHint_eq (hle : minAddr ≤ maxAddr) :
    (if maxAddr < (if hint < minAddr then minAddr else hint) then maxAddr
      else (if hint < minAddr then minAddr else hint)) = clampHint minAddr maxAddr hint := by
  unfold clampHint
  split_ifs
  all_goals omega

section Cases

variable {next : MapEntry}

theorem searchRange_above (hne : tree ≠ []) (hle : minAddr ≤ maxAddr)
    (hn : mapLowerBound tree (clampHint minAddr maxAddr hint) = none) :
    searchRange tree minAddr maxAddr hint length = .error .assertion := by
  unfold searchRange
  rw [if_neg hne, clampHint_eq hle]
  simp only [hn]

theorem searchRange_between {p : MapEntry} (hne : tree ≠ []) (hle : minAddr ≤ maxAddr)
    (hn : mapLowerBound tree (clampHint minAddr maxAddr hint) = some next)
    (hp : rbtPrev tree next = some p) :
    searchRange tree minAddr maxAddr hint length =
      findGap tree minAddr maxAddr hint length (2 * tree.length + 2) (some p) (some next)
        (clampHint minAddr maxAddr hint) false := by
  unfold searchRange
  rw [if_neg hne, clampHint_eq hle]
  simp only [hn, hp]

theorem searchRange_first (hne : tree ≠ []) (hle : minAddr ≤ maxAddr)
    (hn : mapLowerBound tree (clampHint minAddr maxAddr hint) = some next)
    (hp : rbtPrev tree next = none) :
    searchRange tree minAddr maxAddr hint length =
      if minAddr + length ≤ next.base then .ok (some minAddr)
      else findGap tree minAddr maxAddr hint length (2 * tree.length + 2) (some next)
        (rbtNext tree next) (clampHint minAddr maxAddr hint) false := by
  unfold searchRange
  rw [if_neg hne, clampHint_eq hle]
  simp only [hn, hp]

end Cases

theorem Fits.clamp (h : Fits tree minAddr maxAddr length hint) :
    clampHint minAddr maxAddr hint = hint := by
  have h1 := h.min_le
  have h2 := h.le_max
  unfold clampHint
  omega

theorem searchRange_nil (hroom : minAddr + length ≤ maxAddr) :
    Serves [] minAddr maxAddr hint length (searchRange [] minAddr maxAddr hint length) := by
  have hfits : ∀ b, minAddr ≤ b → b + length ≤ maxAddr → Fits [] minAddr maxAddr length b := by
    intro b h1 h2
    exact ⟨h1, h2, by simp⟩
  have hclamp := @clampHint_eq _ _ hint (show minAddr ≤ maxAddr by omega)
  have hmin : minAddr ≤ clampHint minAddr maxAddr hint := by
    unfold clampHint
    omega
  unfold searchRange
  rw [if_pos rfl, hclamp]
  by_cases h : clampHint minAddr maxAddr hint + length ≤ maxAddr
  · rw [if_pos h]
    refine ⟨_, rfl, .found (hfits _ hmin h), fun hb => ?_⟩
    rw [hb.clamp]
  · rw [if_neg h, if_pos hroom]
    refine ⟨_, rfl, .found (hfits _ le_rfl hroom), fun hb => ?_⟩
    rw [hb.clamp] at h
    exact absurd hb.le_max h

section Search

variable {next : MapEntry}

/-- A hint that is a place, below the lowest entry that starts at the hint or above. -/
theorem Fits.below (h : Fits tree minAddr maxAddr length hint) (hl : Laid tree minAddr maxAddr)
    (hn : next ∈ tree) (hge : clampHint minAddr maxAddr hint ≤ next.base) :
    hint + length ≤ next.base := by
  have hlt := hl.lt next hn
  rw [h.clamp] at hge
  rcases h.free next hn with hfree | hfree
  · omega
  · exact hfree

/-- **The search that starts between two entries** serves. -/
theorem between_serves {p : MapEntry} (hl : Laid tree minAddr maxAddr)
    (hmax : maxAddr < 2 ^ 64) (hle : minAddr ≤ maxAddr)
    (hn : mapLowerBound tree (clampHint minAddr maxAddr hint) = some next)
    (hp : rbtPrev tree next = some p) :
    Serves tree minAddr maxAddr hint length
        (findGap tree minAddr maxAddr hint length (2 * tree.length + 2) (some p) (some next)
          (clampHint minAddr maxAddr hint) false) ∧
      Searchable tree minAddr maxAddr hint length := by
  obtain ⟨hnt, hge, hmin⟩ := hl.sorted.lowerBound_eq_some_iff.mp hn
  obtain ⟨hpt, hpn, hpmax⟩ := hl.sorted.prev_eq_some hp
  simp only [key] at hge hmin hpn hpmax
  have hpe := hl.apart p hpt next hnt hpn
  have hpmin := hl.min_le p hpt
  have hplt := hl.lt p hpt
  -- the entry before lies below the hint
  have hpc : p.base < clampHint minAddr maxAddr hint := by
    by_contra hge'
    exact absurd hpn (hmin p hpt (not_lt.mp hge')).not_gt
  have hstart : gapStart minAddr (clampHint minAddr maxAddr hint) (some p)
      = max p.endAddr (clampHint minAddr maxAddr hint) := rfl
  have hgap : Gap tree minAddr (clampHint minAddr maxAddr hint) (some p) next := by
    refine ⟨hnt, ?_, ?_, ?_⟩
    · intro e he hlt
      rw [hstart]
      rcases (hpmax e he hlt).lt_or_eq with h | h
      · have := hl.apart e he p hpt h
        omega
      · rw [hl.sorted.eq_of_key he hpt h]
        exact le_max_left _ _
    · rw [hstart]
      exact max_le hpe hge
    · rw [hstart]
      omega
  have hhint : hint ≠ 0 := by
    rintro rfl
    unfold clampHint at hpc
    omega
  obtain ⟨r, hr, hanswer, hhit⟩ := @findGap_spec _ _ _ hint length _
    (2 * tree.length + 2) _ _ false hl hmax hgap (by simp [hhint]) (by
      have := @KeyedTree.countFrom_le _ _ _ key tree next.base
      unfold roundsLeft
      split
      · omega
      · omega)
  constructor
  · refine ⟨r, hr, hanswer, fun hfit => ?_⟩
    have hbelow := hfit.below hl hnt hge
    have hclamp := hfit.clamp
    have hfree : p.endAddr ≤ hint := by
      rcases hfit.free p hpt with h | h
      · exact h
      · omega
    rw [hstart, hclamp, max_eq_right hfree] at hhit
    exact hhit hbelow
  · refine ⟨⟨next, hnt, hge⟩, ?_, ?_⟩
    · rintro e rfl
      rw [List.mem_singleton] at hpt hnt
      rw [hpt, hnt] at hpn
      exact absurd hpn (lt_irrefl _)
    · rintro ⟨hlt, hall⟩
      have h1 := hall p hpt
      have h2 := hl.le_max p hpt
      unfold clampHint at hpc
      omega

/-- The bottom is the hint, if that is a place, unless the hint is above it and below every
entry. -/
theorem bottom_iff (hl : Laid tree minAddr maxAddr) (hn : next ∈ tree)
    (hge : clampHint minAddr maxAddr hint ≤ next.base) (hfirst : ∀ e ∈ tree, next.base ≤ e.base) :
    (Fits tree minAddr maxAddr length hint → minAddr = hint) ↔
      ¬ (minAddr < hint ∧ ∀ e ∈ tree, hint + length ≤ e.base) := by
  constructor
  · rintro h ⟨hlt, hall⟩
    have h1 := hall next hn
    have h2 := hl.le_max next hn
    have h3 := hl.lt next hn
    have := h ⟨hlt.le, by omega, fun e he => Or.inr (hall e he)⟩
    omega
  · intro h hfit
    by_contra hne
    have hbelow := hfit.below hl hn hge
    have hmin := hfit.min_le
    exact h ⟨by omega, fun e he => hbelow.trans (hfirst e he)⟩

/-- **The search that starts before the first entry**, with no room below it: it serves, or it
dereferences the entry after a single one that has no room above it. -/
theorem first_short (hl : Laid tree minAddr maxAddr) (hmax : maxAddr < 2 ^ 64)
    (hn : mapLowerBound tree (clampHint minAddr maxAddr hint) = some next)
    (hp : rbtPrev tree next = none) (hlow : ¬ minAddr + length ≤ next.base) :
    Serves tree minAddr maxAddr hint length
        (findGap tree minAddr maxAddr hint length (2 * tree.length + 2) (some next)
          (rbtNext tree next) (clampHint minAddr maxAddr hint) false) ∧
        (∀ e, tree = [e] → e.endAddr + length ≤ maxAddr) ∨
      findGap tree minAddr maxAddr hint length (2 * tree.length + 2) (some next)
          (rbtNext tree next) (clampHint minAddr maxAddr hint) false = .error .nullDeref ∧
        tree = [next] ∧ ¬ next.endAddr + length ≤ maxAddr := by
  obtain ⟨hnt, hge, -⟩ := hl.sorted.lowerBound_eq_some_iff.mp hn
  have hfirst := KeyedTree.prev_eq_none_iff.mp hp
  simp only [key] at hge hfirst
  have hnlt := hl.lt next hnt
  have hnmin := hl.min_le next hnt
  have hnmax := hl.le_max next hnt
  -- the hint is no place here: it would be one below the first entry
  have hnofit : ¬ Fits tree minAddr maxAddr length hint := by
    intro hfit
    have := hfit.below hl hnt hge
    have := hfit.min_le
    omega
  have hbeyond : ∀ b, Fits tree minAddr maxAddr length b → next.endAddr ≤ b := by
    intro b hb
    have := hb.min_le
    rcases hb.free next hnt with h | h
    · exact h
    · omega
  have hstart : gapStart minAddr (clampHint minAddr maxAddr hint) (some next) = next.endAddr := by
    show max next.endAddr _ = _
    omega
  cases hn₂ : rbtNext tree next with
  | none =>
    have htree := hl.eq_singleton hnt hn₂ hp
    simp only [findGap, Option.map_some, Option.getD_some, Option.map_none, Option.getD_none]
    rw [← Option.getD_some (a := next.endAddr) (b := minAddr), ← Option.map_some, ← gapStart,
      hstart]
    by_cases hlast : next.endAddr + length ≤ maxAddr
    · left
      rw [if_pos (by unfold wsub; omega)]
      refine ⟨⟨_, rfl, .found (hl.fits_last hnt hn₂ hlast), fun h => absurd h hnofit⟩, ?_⟩
      rintro e rfl
      rw [List.mem_singleton.mp hnt] at hlast
      exact hlast
    · right
      rw [if_neg (by unfold wsub; omega)]
      exact ⟨rfl, htree, hlast⟩
  | some n₂ =>
    left
    obtain ⟨hn₂t, hlt, hmin⟩ := hl.sorted.next_eq_some_iff.mp hn₂
    simp only [key] at hlt hmin
    have hgap : Gap tree minAddr (clampHint minAddr maxAddr hint) (some next) n₂ := by
      refine ⟨hn₂t, ?_, ?_, ?_⟩
      · intro e he hbase
        rw [hstart]
        rcases (hfirst e he).lt_or_eq with h | h
        · exact absurd hbase (hmin e he h).not_gt
        · rw [hl.sorted.eq_of_key he hnt h.symm]
      · rw [hstart]
        exact hl.apart next hnt n₂ hn₂t hlt
      · rw [hstart]
        omega
    obtain ⟨r, hr, hanswer, -⟩ := @findGap_spec _ _ _ hint length _
      (2 * tree.length + 2) _ _ false hl hmax hgap (by
        intro _ b hb
        rw [hstart]
        exact hbeyond b hb) (by
        have := @KeyedTree.countFrom_le _ _ _ key tree n₂.base
        unfold roundsLeft
        split
        · omega
        · omega)
    refine ⟨⟨r, hr, hanswer, fun h => absurd h hnofit⟩, ?_⟩
    rintro e rfl
    rw [List.mem_singleton] at hnt hn₂t
    rw [hnt, hn₂t] at hlt
    exact absurd hlt (lt_irrefl _)

theorem bottom_fits (hroom : minAddr + length ≤ maxAddr) (hfirst : ∀ e ∈ tree, next.base ≤ e.base)
    (hlow : minAddr + length ≤ next.base) : Fits tree minAddr maxAddr length minAddr :=
  ⟨le_rfl, hroom, fun e he => Or.inr (hlow.trans (hfirst e he))⟩

/-- **The search that starts before the first entry.** -/
theorem first_serves_iff (hl : Laid tree minAddr maxAddr) (hmax : maxAddr < 2 ^ 64)
    (hroom : minAddr + length ≤ maxAddr)
    (hn : mapLowerBound tree (clampHint minAddr maxAddr hint) = some next)
    (hp : rbtPrev tree next = none) :
    Serves tree minAddr maxAddr hint length
        (if minAddr + length ≤ next.base then .ok (some minAddr)
          else findGap tree minAddr maxAddr hint length (2 * tree.length + 2) (some next)
            (rbtNext tree next) (clampHint minAddr maxAddr hint) false) ↔
      Searchable tree minAddr maxAddr hint length := by
  obtain ⟨hnt, hge, -⟩ := hl.sorted.lowerBound_eq_some_iff.mp hn
  have hfirst := KeyedTree.prev_eq_none_iff.mp hp
  simp only [key] at hge hfirst
  have hbottom := @bottom_iff _ _ _ _ length _ hl hnt hge hfirst
  by_cases hlow : minAddr + length ≤ next.base
  · rw [if_pos hlow]
    constructor
    · rintro ⟨r, hr, -, hhint⟩
      refine ⟨⟨next, hnt, hge⟩, ?_, hbottom.mp fun hfit => ?_⟩
      · rintro e rfl
        rw [List.mem_singleton.mp hnt] at hlow
        exact Or.inl hlow
      · rw [hhint hfit] at hr
        cases hr
        rfl
    · intro h
      refine ⟨_, rfl, .found (bottom_fits hroom hfirst hlow), fun hfit => ?_⟩
      rw [hbottom.mpr h.before hfit]
  rw [if_neg hlow]
  have hbefore : ¬ (minAddr < hint ∧ ∀ e ∈ tree, hint + length ≤ e.base) := by
    rintro ⟨hlt, hall⟩
    have := hall next hnt
    omega
  rcases first_short hl hmax hn hp hlow with ⟨hserves, halone⟩ | ⟨herror, htree, hlast⟩
  · exact ⟨fun _ => ⟨⟨next, hnt, hge⟩, fun e he => Or.inr (halone e he), hbefore⟩,
      fun _ => hserves⟩
  · rw [herror]
    constructor
    · intro h
      exact absurd h not_serves_error
    · intro h
      rcases h.alone next htree with h1 | h1
      · exact absurd h1 hlow
      · exact absurd h1 hlast

end Search

/-- **When the search does what it is for**: when the map is empty or searchable. -/
theorem searchRange_serves_iff (hl : Laid tree minAddr maxAddr) (hmax : maxAddr < 2 ^ 64)
    (hroom : minAddr + length ≤ maxAddr) :
    Serves tree minAddr maxAddr hint length (searchRange tree minAddr maxAddr hint length) ↔
      tree = [] ∨ Searchable tree minAddr maxAddr hint length := by
  by_cases hne : tree = []
  · subst hne
    simp only [searchRange_nil hroom, true_or]
  have hle : minAddr ≤ maxAddr := by omega
  rw [or_iff_right hne]
  cases hn : mapLowerBound tree (clampHint minAddr maxAddr hint) with
  | none =>
    have hall := KeyedTree.lowerBound_eq_none_iff.mp hn
    rw [searchRange_above hne hle hn]
    constructor
    · intro h
      exact absurd h not_serves_error
    · rintro ⟨⟨e, he, hge⟩, -, -⟩
      exact absurd hge (hall e he).not_ge
  | some next =>
    cases hp : rbtPrev tree next with
    | some p =>
      rw [searchRange_between hne hle hn hp]
      obtain ⟨hserves, hsearchable⟩ := @between_serves _ _ _ _ length _ _ hl hmax hle hn hp
      exact ⟨fun _ => hsearchable, fun _ => hserves⟩
    | none =>
      rw [searchRange_first hne hle hn hp]
      exact first_serves_iff hl hmax hroom hn hp

/-- **Whatever the search finds is a place**, also where it does not serve. -/
theorem searchRange_fits (hl : Laid tree minAddr maxAddr) (hmax : maxAddr < 2 ^ 64)
    (hroom : minAddr + length ≤ maxAddr)
    (hb : searchRange tree minAddr maxAddr hint length = .ok (some b)) :
    Fits tree minAddr maxAddr length b := by
  have hle : minAddr ≤ maxAddr := by omega
  have hserves : ∀ x : Except Failure (Option ℕ),
      Serves tree minAddr maxAddr hint length x → x = .ok (some b) →
        Fits tree minAddr maxAddr length b := by
    rintro x ⟨r, hr, hanswer, -⟩ hx
    rw [hr] at hx
    cases hx
    exact hanswer.fits b rfl
  by_cases hne : tree = []
  · subst hne
    exact hserves _ (searchRange_nil hroom) hb
  cases hn : mapLowerBound tree (clampHint minAddr maxAddr hint) with
  | none =>
    rw [searchRange_above hne hle hn] at hb
    cases hb
  | some next =>
    cases hp : rbtPrev tree next with
    | some p =>
      rw [searchRange_between hne hle hn hp] at hb
      exact hserves _ (between_serves hl hmax hle hn hp).1 hb
    | none =>
      rw [searchRange_first hne hle hn hp] at hb
      split at hb
      · rename_i hlow
        cases hb
        exact bottom_fits hroom (KeyedTree.prev_eq_none_iff.mp hp) hlow
      · rename_i hlow
        rcases first_short hl hmax hn hp hlow with ⟨hs, -⟩ | ⟨herror, -⟩
        · exact hserves _ hs hb
        · rw [herror] at hb
          cases hb

theorem findGap_origin {next : Option MapEntry} (hp : ∀ e, prev = some e → e ∈ tree)
    (hn : ∀ e, next = some e → e ∈ tree)
    (hb : findGap tree minAddr maxAddr hint length fuel prev next base wrapped = .ok (some b)) :
    b = base ∨ b = minAddr ∨ ∃ e ∈ tree, b = e.endAddr := by
  induction fuel generalizing prev next base wrapped with
  | zero => cases hb
  | succ fuel ih =>
    unfold findGap at hb
    simp only at hb
    split at hb
    · cases hb
      rcases max_choice ((prev.map MapEntry.endAddr).getD minAddr) base with h | h
      · rw [h]
        cases prev with
        | none => exact Or.inr (Or.inl rfl)
        | some p => exact Or.inr (Or.inr ⟨p, hp p rfl, rfl⟩)
      · exact Or.inl h
    · cases next with
      | none => cases hb
      | some n =>
        have hnt := hn n rfl
        cases hn₂ : rbtNext tree n with
        | some n₂ =>
          simp only [hn₂] at hb
          refine ih ?_ ?_ hb
          · rintro e ⟨⟩
            exact hnt
          · rintro e ⟨⟩
            exact List.mem_of_find?_eq_some hn₂
        | none =>
          simp only [hn₂] at hb
          split at hb
          · cases hb
            exact Or.inr (Or.inr ⟨n, hnt, rfl⟩)
          · split at hb
            · cases hb
            · rcases ih (by simp) (fun e he => List.mem_of_mem_head? he) hb with h | h | h
              · exact Or.inr (Or.inl h)
              · exact Or.inr (Or.inl h)
              · exact Or.inr (Or.inr h)

/-- Where the search can stop: at the hint, at the bottom or behind an entry. -/
theorem searchRange_origin (hle : minAddr ≤ maxAddr)
    (hb : searchRange tree minAddr maxAddr hint length = .ok (some b)) :
    b = clampHint minAddr maxAddr hint ∨ b = minAddr ∨ ∃ e ∈ tree, b = e.endAddr := by
  by_cases hne : tree = []
  · subst hne
    unfold searchRange at hb
    rw [if_pos rfl, clampHint_eq hle] at hb
    split_ifs at hb
    · cases hb
      exact Or.inl rfl
    · cases hb
      exact Or.inr (Or.inl rfl)
    · cases hb
  cases hn : mapLowerBound tree (clampHint minAddr maxAddr hint) with
  | none =>
    rw [searchRange_above hne hle hn] at hb
    cases hb
  | some next =>
    have hnt : next ∈ tree := List.mem_of_find?_eq_some hn
    cases hp : rbtPrev tree next with
    | some p =>
      rw [searchRange_between hne hle hn hp] at hb
      refine findGap_origin ?_ (by simp [hnt]) hb
      rintro e ⟨⟩
      exact List.mem_of_mem_filter (List.mem_of_getLast? hp)
    | none =>
      rw [searchRange_first hne hle hn hp] at hb
      split at hb
      · cases hb
        exact Or.inr (Or.inl rfl)
      · refine findGap_origin (by simp [hnt]) ?_ hb
        intro e he
        exact List.mem_of_find?_eq_some he

/-! ## The new entry -/

section Alloc

variable {env : Env} {s : Vm} {m cache offset : ℕ} {prot : Prot} {inheritance : Inheritance}
  {type : EntryType} {flags : MapFlags}

/-- The lower bound of the addresses of a map. -/
abbrev minAddrOf (m : ℕ) : ℕ := (vaBounds m).1

/-- The upper bound of the addresses of a map. -/
abbrev maxAddrOf (m : ℕ) : ℕ := (vaBounds m).2

theorem vaBounds_lt (m : ℕ) : minAddrOf m < maxAddrOf m ∧ maxAddrOf m < 2 ^ 64 := by
  unfold minAddrOf maxAddrOf vaBounds
  split
  · decide
  · decide

/-- What `alloc_map_range_locked` is for: a new entry at a place, at the hint if that is one;
`YAK_NOSPACE` only when there is no place. -/
def Placed (m hint length : ℕ) (s : Vm) (r : Except Status MapEntry) (s' : Vm) : Prop :=
  (∀ entry, r = .ok entry →
    Fits (s.tree m) (minAddrOf m) (maxAddrOf m) length entry.base ∧
      entry.endAddr = entry.base + length ∧
      (∀ e, e ∈ s'.tree m ↔ e = entry ∨ e ∈ s.tree m) ∧
      (Fits (s.tree m) (minAddrOf m) (maxAddrOf m) length hint → entry.base = hint)) ∧
  (∀ rv, r = .error rv →
    rv = .nospace ∧ ∀ b, ¬ Fits (s.tree m) (minAddrOf m) (maxAddrOf m) length b)

theorem Fits.mem_insert (h : Fits tree minAddr maxAddr length b) (hl : Laid tree minAddr maxAddr)
    (hlen : 0 < length) {entry e : MapEntry} (hb : entry.base = b) :
    e ∈ rbtInsert tree entry ↔ e = entry ∨ e ∈ tree := by
  apply KeyedTree.mem_insert_of_new
  intro z hz
  show z.base ≠ entry.base
  have hlt := hl.lt z hz
  rcases h.free z hz with h1 | h1
  · omega
  · omega

theorem chooseBase_ends (hlen : 0 < length) (hf : flags.fixed = false)
    {Q : Except Status ℕ → Vm → Prop} {R : Failure → Prop} :
    (chooseBase m hint length flags).Ends env s Q R ↔
      (maxAddrOf m - minAddrOf m < length → Q (.error .nospace) s) ∧
      (length ≤ maxAddrOf m - minAddrOf m →
        (∀ e, searchRange (s.tree m) (minAddrOf m) (maxAddrOf m) hint length = .error e → R e) ∧
        (searchRange (s.tree m) (minAddrOf m) (maxAddrOf m) hint length = .ok none →
          Q (.error .nospace) s) ∧
        (∀ b, searchRange (s.tree m) (minAddrOf m) (maxAddrOf m) hint length = .ok (some b) →
          Q (.ok b) s)) := by
  have hne : length ≠ 0 := by omega
  simp only [chooseBase, hf, if_neg hne, Bool.false_eq_true, if_false]
  by_cases hroom : maxAddrOf m - minAddrOf m < length
  · rw [if_pos hroom]
    simp [hroom, not_le.mpr hroom]
  · rw [if_neg hroom, ends_bind, ends_getState]
    rcases hx : searchRange (s.tree m) (minAddrOf m) (maxAddrOf m) hint length with e | _ | b
    · simp [hroom, not_lt.mp hroom]
    · simp [hroom, not_lt.mp hroom]
    · simp [hroom, not_lt.mp hroom]

theorem allocMapRangeLocked_ends (hlen : 0 < length) (hf : flags.fixed = false)
    {Q : Except Status MapEntry → Vm → Prop} {R : Failure → Prop} :
    (allocMapRangeLocked m hint length prot inheritance cache offset type flags).Ends env s Q R ↔
      (maxAddrOf m - minAddrOf m < length → Q (.error .nospace) s) ∧
      (length ≤ maxAddrOf m - minAddrOf m →
        (∀ e, searchRange (s.tree m) (minAddrOf m) (maxAddrOf m) hint length = .error e → R e) ∧
        (searchRange (s.tree m) (minAddrOf m) (maxAddrOf m) hint length = .ok none →
          Q (.error .nospace) s) ∧
        (∀ b, searchRange (s.tree m) (minAddrOf m) (maxAddrOf m) hint length = .ok (some b) →
          (minAddrOf m ≤ b ∨ wadd b length < maxAddrOf m →
            (env.kmalloc s.clock = true →
              Q (.ok (initMapEntry s.heapNext offset b (wadd b length) prot inheritance cache type))
                ({ s.tick with heapNext := s.heapNext + 1 }.setTree m (rbtInsert (s.tree m)
                  (initMapEntry s.heapNext offset b (wadd b length) prot inheritance cache
                    type)))) ∧
            (env.kmalloc s.clock = false → R .nullDeref)) ∧
          (¬ (minAddrOf m ≤ b ∨ wadd b length < maxAddrOf m) → R .assertion))) := by
  simp only [allocMapRangeLocked, ends_bind, chooseBase_ends hlen hf, ends_pure, ends_check,
    ends_kmalloc_iff, ends_fail, ends_change]
  exact Iff.rfl

/-- **The free-range search is total and complete** exactly where the length exceeds the bounds,
or the map is empty or searchable and the entry can be allocated when there is a place. -/
theorem allocMapRangeLocked_placed_iff (hl : Laid (s.tree m) (minAddrOf m) (maxAddrOf m))
    (hlen : 0 < length) (hf : flags.fixed = false) :
    (allocMapRangeLocked m hint length prot inheritance cache offset type flags).Ends env s
        (Placed m hint length s) (fun _ => False) ↔
      maxAddrOf m - minAddrOf m < length ∨
        (s.tree m = [] ∨ Searchable (s.tree m) (minAddrOf m) (maxAddrOf m) hint length) ∧
          ((∃ b, Fits (s.tree m) (minAddrOf m) (maxAddrOf m) length b) →
            env.kmalloc s.clock = true) := by
  obtain ⟨hbounds, hmax⟩ := vaBounds_lt m
  have hsearch := @searchRange_serves_iff _ _ _ hint length hl hmax
  rw [allocMapRangeLocked_ends hlen hf]
  rcases lt_or_ge (maxAddrOf m - minAddrOf m) length with hbig | hroom
  · simp only [hbig, true_or, iff_true, forall_const, not_le.mpr hbig, false_imp_iff, and_true]
    refine ⟨by simp, ?_⟩
    rintro rv ⟨⟩
    refine ⟨rfl, fun b hb => ?_⟩
    have := hb.min_le
    have := hb.le_max
    omega
  have hsearch := hsearch (by omega)
  simp only [hroom, not_lt.mpr hroom, false_imp_iff, true_and, forall_const, false_or]
  rw [← hsearch]
  constructor
  · rintro ⟨herror, hnone, hsome⟩
    rcases hx : searchRange (s.tree m) (minAddrOf m) (maxAddrOf m) hint length with e | _ | b
    · exact (herror e hx).elim
    · have hno := ((hnone hx).2 _ rfl).2
      refine ⟨⟨none, rfl, ⟨by simp, fun _ => hno⟩, fun h => absurd h (hno _)⟩, ?_⟩
      rintro ⟨b, hb⟩
      exact absurd hb (hno b)
    · obtain ⟨hmake, hassert⟩ := hsome b hx
      by_cases hcheck : minAddrOf m ≤ b ∨ wadd b length < maxAddrOf m
      · obtain ⟨hok, hfail⟩ := hmake hcheck
        have halloc : env.kmalloc s.clock = true := by
          by_contra h
          exact hfail (Bool.eq_false_iff.mpr h)
        obtain ⟨hfits, -, -, hhint⟩ := (hok halloc).1 _ rfl
        refine ⟨⟨some b, rfl, .found hfits, fun h => ?_⟩, fun _ => halloc⟩
        exact congrArg some (hhint h)
      · exact (hassert hcheck).elim
  · rintro ⟨⟨r, hr, hanswer, hhint⟩, halloc⟩
    rw [hr]
    refine ⟨by simp, ?_, ?_⟩
    · rintro ⟨⟩
      refine ⟨by simp, ?_⟩
      rintro rv ⟨⟩
      exact ⟨rfl, hanswer.nospace rfl⟩
    · rintro b ⟨⟩
      have hfits := hanswer.fits b rfl
      have hend : wadd b length = b + length := by
        have := hfits.le_max
        unfold wadd
        omega
      refine ⟨fun _ => ⟨fun _ => ⟨?_, by simp⟩, fun hno => ?_⟩, fun h => h (Or.inl hfits.min_le)⟩
      · rintro entry ⟨⟩
        refine ⟨hfits, hend, fun e => ?_, fun h => ?_⟩
        · rw [tree_setTree]
          exact hfits.mem_insert hl hlen rfl
        · exact Option.some_inj.mp (hhint h)
      · rw [halloc ⟨b, hfits⟩] at hno
        cases hno

/-- An entry of two pages above the lowest address. -/
def twoPages : MapEntry := initMapEntry 1 0 0x3000 0x5000 ⟨true, true, false, true, false⟩ .shared 3
  .reserved

theorem twoPages_laid : Laid ((oneEntry twoPages).tree 1) (minAddrOf 1) (maxAddrOf 1) := by
  have hmem : ∀ e ∈ (oneEntry twoPages).tree 1, e = twoPages := fun e he => List.mem_singleton.mp he
  refine ⟨List.pairwise_singleton _ _, ?_, ?_, ?_, ?_⟩
  · intro e he
    rw [hmem e he]
    decide
  · intro e he e' he' hlt
    rw [hmem e he, hmem e' he'] at hlt
    exact absurd hlt (lt_irrefl _)
  · intro e he
    rw [hmem e he]
    decide
  · intro e he
    rw [hmem e he]
    decide

/-- Three pages next to the entry, without a hint. -/
theorem allocMapRangeLocked_placed_three :
    (allocMapRangeLocked 1 0 0x3000 .zero .none 0 0 .reserved {}).Ends (Env.alone (fun _ => none))
        (oneEntry twoPages) (Placed 1 0 0x3000 (oneEntry twoPages)) (fun _ => False) ↔
      maxAddrOf 1 - minAddrOf 1 < 0x3000 ∨
        ((oneEntry twoPages).tree 1 = [] ∨
          Searchable ((oneEntry twoPages).tree 1) (minAddrOf 1) (maxAddrOf 1) 0 0x3000) ∧
          ((∃ b, Fits ((oneEntry twoPages).tree 1) (minAddrOf 1) (maxAddrOf 1) 0x3000 b) →
            (Env.alone (fun _ => none)).kmalloc (oneEntry twoPages).clock = true) :=
  allocMapRangeLocked_placed_iff twoPages_laid (by decide) rfl

/-- **A hint above every entry fails the assertion**, though everything above is free. -/
theorem allocMapRangeLocked_above_fails :
    Laid ((oneEntry twoPages).tree 1) (minAddrOf 1) (maxAddrOf 1) ∧
      Fits ((oneEntry twoPages).tree 1) (minAddrOf 1) (maxAddrOf 1) 0x1000 0x8000 ∧
      allocMapRangeLocked 1 0x8000 0x1000 .zero .none 0 0 .reserved {} (Env.alone (fun _ => none))
        (oneEntry twoPages) = .error .assertion := by
  refine ⟨twoPages_laid, ⟨by decide, by decide, ?_⟩, rfl⟩
  intro e he
  rw [List.mem_singleton.mp he]
  decide

end Alloc

end Vm
