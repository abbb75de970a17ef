/-
# Lists cut into pieces

`Cuts pieces lines`: each line is cut into some of the pieces, one after the other, so that no piece
goes over the end of a line.
-/
import Mathlib.Data.List.Infix

variable {α : Type*}

/-- The lines are the concatenations of groups of consecutive pieces. -/
def Cuts (pieces lines : List (List α)) : Prop :=
  ∃ groups : List (List (List α)), groups.flatten = pieces ∧ groups.map List.flatten = lines

namespace Cuts

variable {pieces pieces' lines lines' a b : List (List α)} {x y : List α}

theorem nil : Cuts ([] : List (List α)) [] := ⟨[], rfl, rfl⟩

theorem append (h : Cuts pieces lines) (h' : Cuts pieces' lines') :
    Cuts (pieces ++ pieces') (lines ++ lines') := by
  obtain ⟨groups, rfl, rfl⟩ := h
  obtain ⟨groups', rfl, rfl⟩ := h'
  exact ⟨groups ++ groups', List.flatten_append, List.map_append⟩

theorem whole (x : List α) : Cuts [x] [x] := ⟨[[x]], by simp, by simp⟩

theorem flatten_eq (h : Cuts pieces lines) : pieces.flatten = lines.flatten := by
  obtain ⟨groups, rfl, rfl⟩ := h
  exact List.flatten_flatten

theorem exists_infix (h : Cuts pieces lines) (hx : x ∈ pieces) : ∃ line ∈ lines, x <:+: line := by
  obtain ⟨groups, rfl, rfl⟩ := h
  obtain ⟨group, hgroup, hmem⟩ := List.mem_flatten.1 hx
  obtain ⟨before, after, rfl⟩ := List.append_of_mem hmem
  refine ⟨_, List.mem_map_of_mem hgroup, before.flatten, after.flatten, ?_⟩
  simp

theorem split (h : Cuts (a ++ (x ++ y) :: b) lines) : Cuts (a ++ x :: y :: b) lines := by
  obtain ⟨groups, hflatten, rfl⟩ := h
  induction groups generalizing a with
  | nil => simp at hflatten
  | cons group groups ih =>
    rw [List.flatten_cons, List.append_eq_append_iff] at hflatten
    rcases hflatten with ⟨rest, rfl, hrest⟩ | ⟨rest, rfl, hrest⟩
    · -- the piece is in a later group
      obtain ⟨groups', hflatten', hmap⟩ := ih hrest
      refine ⟨group :: groups', ?_, by rw [List.map_cons, hmap, List.map_cons]⟩
      rw [List.flatten_cons, hflatten', List.append_assoc]
    · cases rest with
      | nil =>
        rw [List.nil_append] at hrest
        obtain ⟨groups', hflatten', hmap⟩ := ih (a := []) hrest.symm
        refine ⟨a :: groups', ?_, ?_⟩
        · rw [List.flatten_cons, hflatten', List.nil_append]
        · rw [List.map_cons, hmap, List.map_cons, List.append_nil]
      | cons piece rest =>
        rw [List.cons_append, List.cons.injEq] at hrest
        obtain ⟨rfl, rfl⟩ := hrest
        refine ⟨(a ++ x :: y :: rest) :: groups, ?_, ?_⟩
        · simp
        · simp

end Cuts
