/-
# Lists read in batches

A reader takes a list in order, a batch at a time: as many of the next elements as fit into the
room that it gives.  What it has so far is the front of the list, up to its cursor.
-/
import Mathlib.Tactic

namespace Batches

variable {α : Type*} {len : α → ℕ} {room : ℕ} {xs : List α} {x : α}

/-! ## One batch -/

/-- As many of the first elements as fit into the room. -/
def fitting (len : α → ℕ) : ℕ → List α → List α
  | _, [] => []
  | room, x :: xs => if len x ≤ room then x :: fitting len (room - len x) xs else []

/-- The room that elements take. -/
def total (len : α → ℕ) (xs : List α) : ℕ := (xs.map len).sum

@[simp] theorem total_nil : total len ([] : List α) = 0 := rfl

@[simp] theorem total_cons : total len (x :: xs) = len x + total len xs := by
  rw [total, List.map_cons, List.sum_cons, total]

theorem fitting_of_le (h : len x ≤ room) :
    fitting len room (x :: xs) = x :: fitting len (room - len x) xs := if_pos h

theorem fitting_of_lt (h : room < len x) : fitting len room (x :: xs) = [] :=
  if_neg (by omega)

theorem fitting_isPrefix (len : α → ℕ) (room : ℕ) (xs : List α) : fitting len room xs <+: xs := by
  induction xs generalizing room with
  | nil => exact List.prefix_rfl
  | cons x xs ih =>
    rcases Nat.lt_or_ge room (len x) with hlt | hle
    · rw [fitting_of_lt hlt]
      exact List.nil_prefix
    · rw [fitting_of_le hle]
      exact (List.prefix_cons_inj x).mpr (ih (room - len x))

theorem total_fitting_le (len : α → ℕ) (room : ℕ) (xs : List α) :
    total len (fitting len room xs) ≤ room := by
  induction xs generalizing room with
  | nil => exact Nat.zero_le room
  | cons x xs ih =>
    rcases Nat.lt_or_ge room (len x) with hlt | hle
    · rw [fitting_of_lt hlt]
      exact Nat.zero_le room
    · have hrest := ih (room - len x)
      rw [fitting_of_le hle, total_cons]
      omega

/-- A batch is empty at the end of the list, and where the next element does not fit. -/
theorem fitting_eq_nil_iff : fitting len room xs = [] ↔ ∀ x ∈ xs.head?, room < len x := by
  cases xs with
  | nil => exact iff_of_true rfl (fun _ h => by cases h)
  | cons x xs =>
    constructor
    · rintro hnil _ ⟨⟩
      by_contra hle
      rw [fitting_of_le (by omega)] at hnil
      cases hnil
    · exact fun h => fitting_of_lt (h x rfl)

theorem eq_nil_of_total (hpos : ∀ x, 0 < len x) (h : total len xs = 0) : xs = [] := by
  cases xs with
  | nil => rfl
  | cons x xs =>
    rw [total_cons] at h
    have hx := hpos x
    omega

/-! ## The cursor -/

/-- **A batch moves the cursor** by its length. -/
theorem take_append_fitting (len : α → ℕ) (room k : ℕ) (xs : List α) :
    xs.take k ++ fitting len room (xs.drop k) =
      xs.take (k + (fitting len room (xs.drop k)).length) := by
  rw [List.take_add, ← List.prefix_iff_eq_take.mp (fitting_isPrefix len room (xs.drop k))]

end Batches
