/-
# Sparse paged storage

Bytes kept in pages of `P` cells, keyed by the position of their first cell; a page that is not
there stands for blanks.  A range is transferred chunk by chunk, each chunk up to the next page
border.  The lemmas say what one chunk does to the cells.
-/
import Mathlib.Data.List.Range
import Mathlib.Logic.Function.Basic
import Mathlib.Tactic

namespace PagedBytes

variable {B : Type*}

/-! ## Positions -/

/-- The first position of the page of `i`. -/
def pageStart (P i : ℕ) : ℕ := i - i % P

/-- The cells from `i` on that lie in the page of `i` and before `stop`. -/
def chunk (P i stop : ℕ) : ℕ := min (P - (i - pageStart P i)) (stop - i)

theorem sub_pageStart (P i : ℕ) : i - pageStart P i = i % P := by
  have h := Nat.mod_le i P
  unfold pageStart
  omega

theorem pageStart_add_mod (P i : ℕ) : pageStart P i + i % P = i := by
  have h := Nat.mod_le i P
  unfold pageStart
  omega

theorem chunk_pos {P i stop : ℕ} (hP : 0 < P) (h : i < stop) : 0 < chunk P i stop := by
  have hlt := Nat.mod_lt i hP
  rw [chunk, sub_pageStart]
  omega

theorem chunk_le (P i stop : ℕ) : chunk P i stop ≤ stop - i := min_le_right _ _

theorem chunk_add_mod_le {P : ℕ} (hP : 0 < P) (i stop : ℕ) : i % P + chunk P i stop ≤ P := by
  have hlt := Nat.mod_lt i hP
  rw [chunk, sub_pageStart]
  omega

theorem add_in_chunk {P i stop d : ℕ} (hP : 0 < P) (hd : d < chunk P i stop) :
    pageStart P (i + d) = pageStart P i ∧ (i + d) % P = i % P + d := by
  have hle := chunk_add_mod_le hP i stop
  have hmod : (i + d) % P = i % P + d := by
    rw [Nat.add_mod, Nat.mod_eq_of_lt (show d < P by omega), Nat.mod_eq_of_lt (by omega)]
  refine ⟨?_, hmod⟩
  have hi := pageStart_add_mod P i
  have hid := pageStart_add_mod P (i + d)
  omega

/-! ## Cells -/

/-- A page with `n` cells from `off` on replaced by those of `src`. -/
def patch (page : ℕ → B) (off n : ℕ) (src : ℕ → B) : ℕ → B :=
  fun i => if off ≤ i ∧ i < off + n then src (i - off) else page i

variable (blank : B)

/-- The page at `start`, blank when it is not there. -/
def pageAt (pages : ℕ → Option (ℕ → B)) (start : ℕ) : ℕ → B :=
  (pages start).getD (fun _ => blank)

/-- The cell at position `i`. -/
def cell (P : ℕ) (pages : ℕ → Option (ℕ → B)) (i : ℕ) : B :=
  pageAt blank pages (pageStart P i) (i % P)

variable {blank}

@[simp] theorem pageAt_update_self (pages : ℕ → Option (ℕ → B)) (start : ℕ) (page : ℕ → B) :
    pageAt blank (Function.update pages start (some page)) start = page := by
  simp [pageAt]

theorem pageAt_update_of_ne {pages : ℕ → Option (ℕ → B)} {start other : ℕ} {page : ℕ → B}
    (h : other ≠ start) :
    pageAt blank (Function.update pages start (some page)) other = pageAt blank pages other := by
  simp [pageAt, h]

theorem cell_insert_blank (P : ℕ) {pages : ℕ → Option (ℕ → B)} {start : ℕ}
    (h : pages start = none) :
    cell blank P (Function.update pages start (some (fun _ => blank))) = cell blank P pages := by
  funext i
  by_cases hi : pageStart P i = start
  · rw [cell, cell, hi, pageAt_update_self, pageAt, h]
    rfl
  · rw [cell, cell, pageAt_update_of_ne hi]

/-- **One chunk.**  Patching the page of `i` by a chunk replaces the cells of the chunk. -/
theorem cell_patch {P i stop : ℕ} (hP : 0 < P) (pages : ℕ → Option (ℕ → B)) (src : ℕ → B) :
    cell blank P (Function.update pages (pageStart P i)
      (some (patch (pageAt blank pages (pageStart P i)) (i % P) (chunk P i stop) src))) =
    patch (cell blank P pages) i (chunk P i stop) src := by
  funext j
  by_cases hj : pageStart P j = pageStart P i
  · rw [cell, hj, pageAt_update_self, patch, patch]
    have hij := pageStart_add_mod P i
    have hjj := pageStart_add_mod P j
    by_cases hin : i % P ≤ j % P ∧ j % P < i % P + chunk P i stop
    · rw [if_pos hin, if_pos (by omega)]
      congr 1
      omega
    · rw [if_neg hin, if_neg (by omega), cell, hj]
  · rw [cell, pageAt_update_of_ne hj, patch, if_neg]
    · rfl
    · rintro ⟨hle, hlt⟩
      -- a position of the chunk lies in the page
      have hd := (add_in_chunk hP (show j - i < chunk P i stop by omega)).1
      rw [show i + (j - i) = j by omega] at hd
      exact hj hd

theorem patch_patch_next (page src : ℕ → B) (off m n : ℕ) :
    patch (patch page off m src) (off + m) n (fun i => src (m + i)) =
      patch page off (m + n) src := by
  funext i
  unfold patch
  by_cases h1 : off + m ≤ i ∧ i < off + m + n
  · rw [if_pos h1, if_pos (show off ≤ i ∧ i < off + (m + n) by omega)]
    show src (m + (i - (off + m))) = src (i - off)
    congr 1
    omega
  · rw [if_neg h1]
    by_cases h2 : off ≤ i ∧ i < off + m
    · rw [if_pos h2, if_pos (show off ≤ i ∧ i < off + (m + n) by omega)]
    · rw [if_neg h2, if_neg (show ¬ (off ≤ i ∧ i < off + (m + n)) by omega)]

@[simp] theorem patch_zero (page src : ℕ → B) (off : ℕ) : patch page off 0 src = page := by
  funext i
  rw [patch, if_neg (by omega)]

/-- The cells of a range, in order. -/
def cells (f : ℕ → B) (start n : ℕ) : List B := (List.range n).map (fun d => f (start + d))

theorem cells_append (f : ℕ → B) (start m n : ℕ) :
    cells f start m ++ cells f (start + m) n = cells f start (m + n) := by
  rw [cells, cells, cells, List.range_add, List.map_append, List.map_map]
  congr 1
  apply List.map_congr_left
  intro d _
  rw [Function.comp_apply, Nat.add_assoc]

theorem cells_chunk {P i stop : ℕ} (hP : 0 < P) (pages : ℕ → Option (ℕ → B)) :
    cells (pageAt blank pages (pageStart P i)) (i % P) (chunk P i stop) =
      cells (cell blank P pages) i (chunk P i stop) := by
  apply List.map_congr_left
  intro d hd
  obtain ⟨hpage, hmod⟩ := add_in_chunk hP (List.mem_range.1 hd)
  rw [cell, hpage, hmod]

end PagedBytes
