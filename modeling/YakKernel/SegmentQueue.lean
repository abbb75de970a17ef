/-
# Queues of segments

A queue without repetitions, with insertion beside an element and access to its neighbours; and
what it means that consecutive segments tile an interval.
-/
import Mathlib.Data.List.Nodup
import Mathlib.Data.List.Chain
import Mathlib.Tactic.Common

namespace SegmentQueue

variable {α : Type*} [DecidableEq α] {x y : α} {p q : List α}

/-! ## Neighbours in a queue -/

/-- `y` just before `x`. -/
def insertBefore (x y : α) : List α → List α
  | [] => []
  | a :: l => if a = x then y :: a :: l else a :: insertBefore x y l

/-- `y` just after `x`. -/
def insertAfter (x y : α) : List α → List α
  | [] => []
  | a :: l => if a = x then a :: y :: l else a :: insertAfter x y l

/-- The element before `x`. -/
def prevOf (x : α) : List α → Option α
  | a :: b :: l => if b = x then some a else prevOf x (b :: l)
  | _ => none

/-- The element after `x`. -/
def nextOf (x : α) : List α → Option α
  | [] => none
  | a :: l => if a = x then l.head? else nextOf x l

theorem insertBefore_append (h : x ∉ p) :
    insertBefore x y (p ++ x :: q) = p ++ y :: x :: q := by
  induction p with
  | nil => simp [insertBefore]
  | cons a p ih =>
    have ha : a ≠ x := fun he => h (he ▸ List.mem_cons_self)
    simp only [List.cons_append, insertBefore, ha, if_false,
      ih (fun hx => h (List.mem_cons_of_mem a hx))]

theorem insertAfter_append (h : x ∉ p) :
    insertAfter x y (p ++ x :: q) = p ++ x :: y :: q := by
  induction p with
  | nil => simp [insertAfter]
  | cons a p ih =>
    have ha : a ≠ x := fun he => h (he ▸ List.mem_cons_self)
    simp only [List.cons_append, insertAfter, ha, if_false,
      ih (fun hx => h (List.mem_cons_of_mem a hx))]

theorem nextOf_append (h : x ∉ p) : nextOf x (p ++ x :: q) = q.head? := by
  induction p with
  | nil => simp [nextOf]
  | cons a p ih =>
    have ha : a ≠ x := fun he => h (he ▸ List.mem_cons_self)
    simp only [List.cons_append, nextOf, ha, if_false,
      ih (fun hx => h (List.mem_cons_of_mem a hx))]

theorem prevOf_append (h : x ∉ p) (hy : y ≠ x) : prevOf x (p ++ y :: x :: q) = some y := by
  induction p with
  | nil => simp [prevOf]
  | cons a p ih =>
    have hp : x ∉ p := fun hx => h (List.mem_cons_of_mem a hx)
    cases p with
    | nil => simp [prevOf, hy]
    | cons b p =>
      have hb : b ≠ x := fun he => hp (he ▸ List.mem_cons_self)
      simp only [List.cons_append, prevOf, hb, if_false]
      exact ih hp

/-! ## Tilings -/

/-- The segments, each a start and a size, follow one another from `a` to `b`. -/
def Tiles (a : ℕ) : List (ℕ × ℕ) → ℕ → Prop
  | [], b => a = b
  | (start, size) :: l, b => start = a ∧ Tiles (a + size) l b

variable {a b c : ℕ} {l m : List (ℕ × ℕ)}

@[simp] theorem tiles_nil : Tiles a [] b ↔ a = b := Iff.rfl

@[simp] theorem tiles_cons {start size : ℕ} :
    Tiles a ((start, size) :: l) b ↔ start = a ∧ Tiles (a + size) l b := Iff.rfl

theorem tiles_append : Tiles a (l ++ m) b ↔ ∃ c, Tiles a l c ∧ Tiles c m b := by
  induction l generalizing a with
  | nil => simp
  | cons s l ih =>
    obtain ⟨start, size⟩ := s
    simp only [List.cons_append, tiles_cons, ih]
    constructor
    · rintro ⟨hs, c, hl, hm⟩
      exact ⟨c, ⟨hs, hl⟩, hm⟩
    · rintro ⟨c, ⟨hs, hl⟩, hm⟩
      exact ⟨hs, c, hl, hm⟩

theorem Tiles.le (h : Tiles a l b) : a ≤ b := by
  induction l generalizing a with
  | nil => exact le_of_eq h
  | cons s l ih =>
    obtain ⟨start, size⟩ := s
    have := ih h.2
    omega

theorem Tiles.mem (h : Tiles a l b) {s : ℕ × ℕ} (hs : s ∈ l) : a ≤ s.1 ∧ s.1 + s.2 ≤ b := by
  obtain ⟨p, q, rfl⟩ := List.append_of_mem hs
  obtain ⟨c, hp, hq⟩ := tiles_append.mp h
  obtain ⟨start, size⟩ := s
  obtain ⟨rfl, hq⟩ := hq
  exact ⟨hp.le, hq.le⟩

/-- **The segments of a tiling do not overlap.** -/
theorem Tiles.pairwise (h : Tiles a l b) : l.Pairwise (fun s t => s.1 + s.2 ≤ t.1) := by
  induction l generalizing a with
  | nil => exact List.Pairwise.nil
  | cons s l ih =>
    obtain ⟨start, size⟩ := s
    obtain ⟨rfl, hl⟩ := h
    refine List.pairwise_cons.mpr ⟨fun t ht => (hl.mem ht).1, ih hl⟩

end SegmentQueue
