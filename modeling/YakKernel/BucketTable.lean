/-
# Tables of buckets

A hash table as a list of buckets: an element goes to the front of the bucket that an index
function picks for it.  Insertion, removal, lookup and rehashing are described by what they do to
the elements of the whole table.
-/
import Mathlib.Data.List.Perm.Basic

namespace BucketTable

variable {α : Type}

/-! ## Operations -/

/-- The elements of a bucket. -/
def bucket (t : List (List α)) (i : ℕ) : List α := t.getD i []

/-- Insert at the head of a bucket. -/
def insertHead (t : List (List α)) (i : ℕ) (a : α) : List (List α) := t.modify i (a :: ·)

/-- Remove an element from a bucket. -/
def removeFrom [DecidableEq α] (t : List (List α)) (i : ℕ) (a : α) : List (List α) :=
  t.modify i (·.erase a)

/-- Move all elements to `n` new buckets, bucket by bucket. -/
def rehash (index : α → ℕ) (n : ℕ) (t : List (List α)) : List (List α) :=
  t.flatten.foldl (fun t a => insertHead t (index a) a) (List.replicate n [])

/-- Every element is in the bucket that its index names. -/
def Placed (index : α → ℕ) (t : List (List α)) : Prop := ∀ i, ∀ a ∈ bucket t i, index a = i

/-! ## One bucket changes -/

theorem bucket_modify {t : List (List α)} {i : ℕ} (hi : i < t.length) (j : ℕ)
    (f : List α → List α) :
    bucket (t.modify i f) j = if i = j then f (bucket t j) else bucket t j := by
  unfold bucket
  rw [List.getD_eq_getElem?_getD, List.getD_eq_getElem?_getD, List.getElem?_modify]
  by_cases hij : i = j
  · subst hij
    simp only [if_true, List.getElem?_eq_getElem hi]
    rfl
  · simp only [if_neg hij]
    cases t[j]? with
    | none => rfl
    | some b => rfl

/-- **One bucket changes.**  The elements of the table change by as much. -/
theorem count_flatten_modify [DecidableEq α] (f : List α → List α) (x : α) :
    ∀ (t : List (List α)) (i : ℕ), i < t.length →
      (t.modify i f).flatten.count x + (bucket t i).count x =
        t.flatten.count x + (f (bucket t i)).count x := by
  intro t
  induction t with
  | nil =>
    intro i hi
    exact absurd hi (Nat.not_lt_zero i)
  | cons b t ih =>
    intro i hi
    cases i with
    | zero =>
      rw [List.modify_zero_cons, List.flatten_cons, List.flatten_cons, List.count_append,
        List.count_append]
      show (f b).count x + t.flatten.count x + b.count x = _ + (f b).count x
      omega
    | succ i =>
      have hrest := ih i (Nat.lt_of_succ_lt_succ hi)
      rw [List.modify_succ_cons, List.flatten_cons, List.flatten_cons, List.count_append,
        List.count_append]
      show b.count x + (t.modify i f).flatten.count x + (bucket t i).count x =
        b.count x + t.flatten.count x + (f (bucket t i)).count x
      omega

theorem mem_flatten_of_mem_bucket {t : List (List α)} {i : ℕ} {a : α} (h : a ∈ bucket t i) :
    a ∈ t.flatten := by
  unfold bucket at h
  rw [List.getD_eq_getElem?_getD] at h
  cases ht : t[i]? with
  | none =>
    rw [ht] at h
    exact absurd h List.not_mem_nil
  | some b =>
    rw [ht] at h
    exact List.mem_flatten.mpr ⟨b, List.mem_of_getElem? ht, h⟩

/-- In a table with every element in its place, an element is found by its index. -/
theorem Placed.mem_bucket {index : α → ℕ} {t : List (List α)} (ht : Placed index t) {a : α}
    (ha : a ∈ t.flatten) : a ∈ bucket t (index a) := by
  obtain ⟨b, hb, hab⟩ := List.mem_flatten.mp ha
  obtain ⟨i, hi⟩ := List.mem_iff_getElem?.mp hb
  have hbi : bucket t i = b := by
    rw [bucket, List.getD_eq_getElem?_getD, hi]
    rfl
  have hidx := ht i a (by rw [hbi]; exact hab)
  rw [hidx, hbi]
  exact hab

/-! ## Insertion -/

section Insertion

variable {index : α → ℕ} {t : List (List α)} {i : ℕ} {a : α}

theorem insertHead_length (t : List (List α)) (i : ℕ) (a : α) :
    (insertHead t i a).length = t.length := List.length_modify ..

theorem insertHead_perm [DecidableEq α] (hi : i < t.length) (a : α) :
    (insertHead t i a).flatten.Perm (a :: t.flatten) := by
  rw [List.perm_iff_count]
  intro x
  have h := count_flatten_modify (a :: ·) x t i hi
  rw [List.count_cons] at h
  rw [insertHead, List.count_cons]
  omega

theorem Placed.insertHead (ht : Placed index t) (hi : index a < t.length) :
    Placed index (insertHead t (index a) a) := by
  intro j b hb
  rw [BucketTable.insertHead, bucket_modify hi] at hb
  by_cases hj : index a = j
  · rw [if_pos hj, List.mem_cons] at hb
    rcases hb with hb | hb
    · rw [hb]
      exact hj
    · exact ht j b hb
  · rw [if_neg hj] at hb
    exact ht j b hb

end Insertion

/-! ## Removal -/

section Removal

variable [DecidableEq α] {index : α → ℕ} {t : List (List α)} {i : ℕ} {a : α}

theorem removeFrom_length (t : List (List α)) (i : ℕ) (a : α) :
    (removeFrom t i a).length = t.length := List.length_modify ..

theorem lt_length_of_mem_bucket (h : a ∈ bucket t i) : i < t.length := by
  by_contra hi
  rw [bucket, List.getD_eq_getElem?_getD, List.getElem?_eq_none (by omega)] at h
  exact absurd h List.not_mem_nil

theorem removeFrom_perm (ha : a ∈ bucket t i) :
    t.flatten.Perm (a :: (removeFrom t i a).flatten) := by
  rw [List.perm_iff_count]
  intro x
  have h := count_flatten_modify (·.erase a) x t i (lt_length_of_mem_bucket ha)
  have herase := (List.perm_cons_erase ha).count_eq x
  rw [List.count_cons] at herase
  rw [removeFrom, List.count_cons]
  omega

theorem Placed.removeFrom (ht : Placed index t) (ha : a ∈ bucket t i) :
    Placed index (removeFrom t i a) := by
  intro j b hb
  rw [BucketTable.removeFrom, bucket_modify (lt_length_of_mem_bucket ha)] at hb
  by_cases hj : i = j
  · rw [if_pos hj] at hb
    exact ht j b (List.mem_of_mem_erase hb)
  · rw [if_neg hj] at hb
    exact ht j b hb

end Removal

/-! ## Rehashing -/

section Rehash

variable [DecidableEq α] {index : α → ℕ} {n : ℕ}

theorem foldl_insertHead (hindex : ∀ a, index a < n) :
    ∀ (l : List α) (t : List (List α)), t.length = n → Placed index t →
      (l.foldl (fun t a => insertHead t (index a) a) t).length = n ∧
      Placed index (l.foldl (fun t a => insertHead t (index a) a) t) ∧
      (l.foldl (fun t a => insertHead t (index a) a) t).flatten.Perm (l ++ t.flatten) := by
  intro l
  induction l with
  | nil =>
    intro t hlen hplaced
    exact ⟨hlen, hplaced, List.Perm.refl _⟩
  | cons a l ih =>
    intro t hlen hplaced
    have ha : index a < t.length := hlen ▸ hindex a
    obtain ⟨h1, h2, h3⟩ := ih (insertHead t (index a) a)
      ((insertHead_length t _ a).trans hlen) (hplaced.insertHead ha)
    refine ⟨h1, h2, h3.trans ?_⟩
    calc (l ++ (insertHead t (index a) a).flatten).Perm (l ++ a :: t.flatten) :=
          (insertHead_perm ha a).append_left l
      _ |>.Perm (a :: (l ++ t.flatten)) := List.perm_middle

theorem bucket_replicate (n i : ℕ) : bucket (List.replicate n ([] : List α)) i = [] := by
  rw [bucket, List.getD_eq_getElem?_getD, List.getElem?_replicate]
  by_cases hi : i < n
  · rw [if_pos hi]
    rfl
  · rw [if_neg hi]
    rfl

/-- **Rehashing** moves every element to its place among the new buckets and loses none. -/
theorem rehash_spec (hindex : ∀ a, index a < n) (t : List (List α)) :
    (rehash index n t).length = n ∧ Placed index (rehash index n t) ∧
      (rehash index n t).flatten.Perm t.flatten := by
  have hempty : Placed index (List.replicate n ([] : List α)) := by
    intro i a ha
    rw [bucket_replicate] at ha
    exact absurd ha List.not_mem_nil
  obtain ⟨h1, h2, h3⟩ := foldl_insertHead hindex t.flatten _ List.length_replicate hempty
  refine ⟨h1, h2, h3.trans ?_⟩
  have hnil : (List.replicate n ([] : List α)).flatten = [] := by
    rw [List.flatten_eq_nil_iff]
    intro b hb
    exact List.eq_of_mem_replicate hb
  rw [hnil, List.append_nil]

end Rehash

end BucketTable
