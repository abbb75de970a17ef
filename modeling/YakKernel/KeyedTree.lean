/-
# Search trees as lists in key order

An ordered tree keyed by `key` is the list of its nodes from the least key to the greatest.
`insert` refuses a node whose key is taken, as tree insertion does; the searches return the
node that a descent from the root ends at, and each has one lemma saying which node that is.
-/
import Mathlib.Data.List.Sort
import Mathlib.Tactic

namespace KeyedTree

variable {α κ : Type*} [LinearOrder κ] (key : α → κ)

/-- The nodes are in key order, and no key occurs twice. -/
def Sorted (t : List α) : Prop := t.Pairwise (fun x y => key x < key y)

/-- Insertion; a node whose key is taken is refused. -/
def insert (x : α) (t : List α) : List α :=
  if t.any (fun y => key y = key x) then t
  else t.orderedInsert (fun y z => key y ≤ key z) x

/-- The least node whose key is at least `k`. -/
def lowerBound (t : List α) (k : κ) : Option α := t.find? (fun y => k ≤ key y)

/-- The node that follows `x`. -/
def next (t : List α) (x : α) : Option α := t.find? (fun y => key x < key y)

/-- The node that precedes `x`. -/
def prev (t : List α) (x : α) : Option α := (t.filter (fun y => key y < key x)).getLast?

/-- The number of nodes with a key of at least `k`. -/
def countFrom (t : List α) (k : κ) : ℕ := t.countP (fun y => k ≤ key y)

variable {key} {t : List α} {x y z : α} {k : κ}

/-! ## Order -/

theorem Sorted.nil : Sorted key ([] : List α) := List.Pairwise.nil

theorem Sorted.filter (h : Sorted key t) (p : α → Bool) : Sorted key (t.filter p) :=
  List.Pairwise.filter p h

theorem Sorted.eq_of_key (h : Sorted key t) (hx : x ∈ t) (hy : y ∈ t) (hk : key x = key y) :
    x = y := by
  induction t with
  | nil => exact absurd hx List.not_mem_nil
  | cons a t ih =>
    have hlt : ∀ b ∈ t, key a < key b := (List.pairwise_cons.mp h).1
    rcases List.mem_cons.mp hx with hxa | hxt
    · rcases List.mem_cons.mp hy with hya | hyt
      · rw [hxa, hya]
      · rw [hxa] at hk
        exact absurd hk (hlt y hyt).ne
    · rcases List.mem_cons.mp hy with hya | hyt
      · rw [hya] at hk
        exact absurd hk (hlt x hxt).ne'
      · exact ih (List.pairwise_cons.mp h).2 hxt hyt

theorem Sorted.find?_eq_some_iff (h : Sorted key t) {p : α → Bool} :
    t.find? p = some x ↔ x ∈ t ∧ p x = true ∧ ∀ y ∈ t, p y = true → key x ≤ key y := by
  induction t with
  | nil => simp
  | cons a t ih =>
    have hlt : ∀ b ∈ t, key a < key b := (List.pairwise_cons.mp h).1
    by_cases ha : p a = true
    · rw [List.find?_cons_of_pos ha]
      constructor
      · intro hax
        cases hax
        refine ⟨List.mem_cons_self, ha, ?_⟩
        intro y hy _
        rcases List.mem_cons.mp hy with rfl | hy
        · exact le_rfl
        · exact (hlt y hy).le
      · rintro ⟨hx, -, hmin⟩
        rcases List.mem_cons.mp hx with rfl | hx
        · rfl
        · have := hmin a List.mem_cons_self ha
          exact absurd (hlt x hx) this.not_gt
    · rw [List.find?_cons_of_neg ha, ih (List.pairwise_cons.mp h).2]
      constructor
      · rintro ⟨hx, hpx, hmin⟩
        refine ⟨List.mem_cons_of_mem _ hx, hpx, ?_⟩
        intro y hy hpy
        rcases List.mem_cons.mp hy with rfl | hy
        · exact absurd hpy ha
        · exact hmin y hy hpy
      · rintro ⟨hx, hpx, hmin⟩
        rcases List.mem_cons.mp hx with rfl | hx
        · exact absurd hpx ha
        · exact ⟨hx, hpx, fun y hy hpy => hmin y (List.mem_cons_of_mem _ hy) hpy⟩

theorem Sorted.nodup (h : Sorted key t) : t.Nodup := by
  apply h.imp
  rintro x _ hlt rfl
  exact absurd hlt (lt_irrefl _)

theorem Sorted.eq_of_mem_iff {t' : List α} (h : Sorted key t) (h' : Sorted key t')
    (hm : ∀ x, x ∈ t ↔ x ∈ t') : t = t' := by
  refine List.Perm.eq_of_pairwise ?_ h h' ((List.perm_ext_iff_of_nodup h.nodup h'.nodup).mpr hm)
  intro x y _ _ hxy hyx
  exact absurd hyx hxy.not_gt

/-! ## Insertion -/

theorem mem_insert : y ∈ insert key x t ↔ y ∈ t ∨ (y = x ∧ ∀ z ∈ t, key z ≠ key x) := by
  unfold insert
  split
  · rename_i hany
    simp only [List.any_eq_true, decide_eq_true_eq] at hany
    obtain ⟨w, hw, hwx⟩ := hany
    constructor
    · intro hy
      exact Or.inl hy
    · rintro (hy | ⟨-, hall⟩)
      · exact hy
      · exact absurd hwx (hall w hw)
  · rename_i hany
    simp only [List.any_eq_true, decide_eq_true_eq, not_exists, not_and] at hany
    rw [List.mem_orderedInsert]
    constructor
    · rintro (rfl | hy)
      · exact Or.inr ⟨rfl, hany⟩
      · exact Or.inl hy
    · rintro (hy | ⟨rfl, -⟩)
      · exact Or.inr hy
      · exact Or.inl rfl

theorem mem_insert_of_new (hx : ∀ z ∈ t, key z ≠ key x) :
    y ∈ insert key x t ↔ y = x ∨ y ∈ t := by
  rw [mem_insert]
  constructor
  · rintro (hy | ⟨rfl, -⟩)
    · exact Or.inr hy
    · exact Or.inl rfl
  · rintro (rfl | hy)
    · exact Or.inr ⟨rfl, hx⟩
    · exact Or.inl hy

theorem insert_of_taken (hz : z ∈ t) (hk : key z = key x) : insert key x t = t := by
  have hany : t.any (fun y => key y = key x) = true := by
    simp only [List.any_eq_true, decide_eq_true_eq]
    exact ⟨z, hz, hk⟩
  rw [insert, if_pos hany]

theorem Sorted.insert (h : Sorted key t) : Sorted key (insert key x t) := by
  by_cases hany : t.any (fun y => key y = key x) = true
  · rw [KeyedTree.insert, if_pos hany]
    exact h
  · rw [KeyedTree.insert, if_neg hany]
    have hne : ∀ z ∈ t, key z ≠ key x := by
      intro z hz hk
      apply hany
      simp only [List.any_eq_true, decide_eq_true_eq]
      exact ⟨z, hz, hk⟩
    clear hany
    induction t with
    | nil => exact List.pairwise_singleton _ _
    | cons a t ih =>
      have hlt : ∀ b ∈ t, key a < key b := (List.pairwise_cons.mp h).1
      have hax : key a ≠ key x := hne a List.mem_cons_self
      by_cases hle : key x ≤ key a
      · rw [List.orderedInsert, if_pos hle]
        have hxa : key x < key a := lt_of_le_of_ne hle hax.symm
        refine List.pairwise_cons.mpr ⟨?_, h⟩
        intro b hb
        rcases List.mem_cons.mp hb with rfl | hb
        · exact hxa
        · exact hxa.trans (hlt b hb)
      · rw [List.orderedInsert, if_neg hle]
        refine List.pairwise_cons.mpr ⟨?_, ?_⟩
        · intro b hb
          rcases (List.mem_orderedInsert _).mp hb with rfl | hb
          · exact lt_of_not_ge hle
          · exact hlt b hb
        · exact ih (List.pairwise_cons.mp h).2
            (fun z hz => hne z (List.mem_cons_of_mem _ hz))

/-! ## Searches -/

theorem Sorted.lowerBound_eq_some_iff (h : Sorted key t) :
    lowerBound key t k = some x ↔
      x ∈ t ∧ k ≤ key x ∧ ∀ y ∈ t, k ≤ key y → key x ≤ key y := by
  rw [lowerBound, h.find?_eq_some_iff]
  simp only [decide_eq_true_eq]

theorem lowerBound_eq_none_iff : lowerBound key t k = none ↔ ∀ y ∈ t, key y < k := by
  simp [lowerBound]

theorem Sorted.next_eq_some_iff (h : Sorted key t) :
    next key t x = some z ↔
      z ∈ t ∧ key x < key z ∧ ∀ y ∈ t, key x < key y → key z ≤ key y := by
  rw [next, h.find?_eq_some_iff]
  simp only [decide_eq_true_eq]

theorem next_eq_none_iff : next key t x = none ↔ ∀ y ∈ t, key y ≤ key x := by
  simp [next]

theorem Sorted.getLast?_eq_some (h : Sorted key t) (hx : t.getLast? = some x) :
    x ∈ t ∧ ∀ y ∈ t, key y ≤ key x := by
  obtain ⟨l, rfl⟩ := List.getLast?_eq_some_iff.mp hx
  refine ⟨by simp, ?_⟩
  intro y hy
  rcases List.mem_append.mp hy with hy | hy
  · exact ((List.pairwise_append.mp h).2.2 y hy x (by simp)).le
  · rw [List.mem_singleton.mp hy]

theorem Sorted.prev_eq_some (h : Sorted key t) (hz : prev key t x = some z) :
    z ∈ t ∧ key z < key x ∧ ∀ y ∈ t, key y < key x → key y ≤ key z := by
  have hmax := (h.filter (fun y => decide (key y < key x))).getLast?_eq_some hz
  simp only [List.mem_filter, decide_eq_true_eq] at hmax
  exact ⟨hmax.1.1, hmax.1.2, fun y hy hlt => hmax.2 y ⟨hy, hlt⟩⟩

theorem prev_eq_none_iff : prev key t x = none ↔ ∀ y ∈ t, key x ≤ key y := by
  simp [prev]

/-! ## Around a node -/

section Around

variable {xs ys : List α}

theorem Sorted.around (h : Sorted key (xs ++ x :: ys)) :
    (∀ y ∈ xs, key y < key x) ∧ ∀ y ∈ ys, key x < key y := by
  obtain ⟨-, hys, hxs⟩ := List.pairwise_append.mp h
  exact ⟨fun y hy => hxs y hy x List.mem_cons_self, (List.pairwise_cons.mp hys).1⟩

theorem Sorted.next_append (h : Sorted key (xs ++ x :: ys)) :
    next key (xs ++ x :: ys) x = ys.head? := by
  obtain ⟨hxs, hys⟩ := h.around
  have hnone : xs.find? (fun y => key x < key y) = none := by
    rw [List.find?_eq_none]
    intro y hy
    simpa using (hxs y hy).le
  rw [next, List.find?_append, hnone, Option.none_or, List.find?_cons_of_neg (by simp)]
  cases ys with
  | nil => rfl
  | cons y ys =>
    rw [List.find?_cons_of_pos (by simpa using hys y List.mem_cons_self)]
    rfl

theorem Sorted.prev_append (h : Sorted key (xs ++ x :: ys)) :
    prev key (xs ++ x :: ys) x = xs.getLast? := by
  obtain ⟨hxs, hys⟩ := h.around
  have hleft : xs.filter (fun y => key y < key x) = xs := by
    rw [List.filter_eq_self]
    intro y hy
    simpa using hxs y hy
  have hright : ys.filter (fun y => key y < key x) = [] := by
    rw [List.filter_eq_nil_iff]
    intro y hy
    simpa using (hys y hy).le
  rw [prev, List.filter_append, hleft, List.filter_cons_of_neg (by simp), hright, List.append_nil]

theorem Sorted.filter_ne (h : Sorted key (xs ++ x :: ys)) :
    (xs ++ x :: ys).filter (fun y => key y ≠ key x) = xs ++ ys := by
  obtain ⟨hxs, hys⟩ := h.around
  have hleft : xs.filter (fun y => key y ≠ key x) = xs := by
    rw [List.filter_eq_self]
    intro y hy
    simpa using (hxs y hy).ne
  have hright : ys.filter (fun y => key y ≠ key x) = ys := by
    rw [List.filter_eq_self]
    intro y hy
    simpa using (hys y hy).ne'
  rw [List.filter_append, hleft, List.filter_cons_of_neg (by simp), hright]

end Around

/-! ## Counting -/

theorem countFrom_le (t : List α) (k : κ) : countFrom key t k ≤ t.length :=
  List.countP_le_length

theorem countFrom_lt (hx : x ∈ t) (hk : key x < k) :
    countFrom key t k < countFrom key t (key x) := by
  unfold countFrom
  induction t with
  | nil => exact absurd hx List.not_mem_nil
  | cons a t ih =>
    have hmono : t.countP (fun y => k ≤ key y) ≤ t.countP (fun y => key x ≤ key y) := by
      apply List.countP_mono_left
      intro y _ hy
      simp only [decide_eq_true_eq] at hy ⊢
      exact hk.le.trans hy
    rcases List.mem_cons.mp hx with rfl | hx
    · rw [List.countP_cons_of_neg (by simp [hk]), List.countP_cons_of_pos (by simp)]
      exact Nat.lt_succ_of_le hmono
    · have hlt := ih hx
      by_cases ha : k ≤ key a
      · rw [List.countP_cons_of_pos (by simpa using ha),
          List.countP_cons_of_pos (by simpa using hk.le.trans ha)]
        exact Nat.succ_lt_succ hlt
      · rw [List.countP_cons_of_neg (by simpa using ha)]
        exact hlt.trans_le (List.sublist_cons_self a t).countP_le

end KeyedTree
