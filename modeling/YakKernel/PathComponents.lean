/-
# The components of a path

A path is a word with a separator; its components are the non-empty words between separators.
Two paths lead to the same place when they have the same components.
-/
import Mathlib.Data.List.Basic
import Mathlib.Data.List.TakeWhile
import Mathlib.Tactic

namespace PathComponents

variable {α : Type*} [DecidableEq α] {sep x : α} {p q r : List α}

/-- The non-empty words between the separators. -/
def components (sep : α) (p : List α) : List (List α) := (p.splitOn sep).filter (· ≠ [])

/-- The paths have the same components. -/
def SamePlace (sep : α) (p q : List α) : Prop := components sep p = components sep q

instance (sep : α) (p q : List α) : Decidable (SamePlace sep p q) :=
  inferInstanceAs (Decidable (_ = _))

@[simp] theorem components_nil : components sep [] = [] := rfl

/-- **Joining two paths joins their components.** -/
theorem components_join (p q : List α) :
    components sep (p ++ sep :: q) = components sep p ++ components sep q := by
  rw [components, List.splitOn_append_cons_self, List.filter_append]
  rfl

theorem components_of_notMem (hp : p ≠ []) (h : sep ∉ p) : components sep p = [p] := by
  rw [components, List.splitOn_eq_singleton h]
  simp [hp]

theorem components_append_seps (h : ∀ x ∈ q, x = sep) :
    components sep (p ++ q) = components sep p := by
  induction q generalizing p with
  | nil => rw [List.append_nil]
  | cons x q ih =>
    obtain ⟨rfl, hq⟩ := List.forall_mem_cons.mp h
    have hnil : components x q = [] := @ih [] hq
    rw [components_join, hnil, List.append_nil]

theorem flatten_components (p : List α) :
    (components sep p).flatten = p.filter (· ≠ sep) := by
  induction hn : p.length using Nat.strong_induction_on generalizing p with
  | _ n ih =>
    by_cases hsep : sep ∈ p
    · obtain ⟨a, b, rfl⟩ := List.append_of_mem hsep
      rw [List.length_append, List.length_cons] at hn
      rw [components_join, List.flatten_append, ih a.length (by omega) a rfl,
        ih b.length (by omega) b rfl, List.filter_append, List.filter_cons_of_neg (by simp)]
    · have hself : p.filter (· ≠ sep) = p := by
        apply List.filter_eq_self.mpr
        rintro x hx
        rw [decide_eq_true_eq]
        rintro rfl
        exact hsep hx
      rw [hself]
      by_cases hp : p = []
      · rw [hp]
        rfl
      · rw [components_of_notMem hp hsep, List.flatten_singleton]

theorem SamePlace.filter_eq (h : SamePlace sep p q) :
    p.filter (· ≠ sep) = q.filter (· ≠ sep) := by
  rw [← flatten_components, ← flatten_components, h]

theorem SamePlace.eq_nil (h : SamePlace sep (p ++ r) q)
    (hpq : p.filter (· ≠ sep) = q.filter (· ≠ sep)) (hr : sep ∉ r) : r = [] := by
  have hfilter := h.filter_eq
  rw [List.filter_append, hpq, List.append_right_eq_self, List.filter_eq_nil_iff] at hfilter
  rw [List.eq_nil_iff_forall_not_mem]
  intro x hx
  have hsep : x = sep := by simpa using hfilter x hx
  exact hr (hsep ▸ hx)

theorem samePlace_join_iff : SamePlace sep (r ++ sep :: p) (r ++ sep :: q) ↔ SamePlace sep p q := by
  unfold SamePlace
  rw [components_join, components_join, List.append_cancel_left_eq]

/-- **A path cut short** leads to the same place when only separators are cut off. -/
theorem samePlace_take_iff {n : ℕ} : SamePlace sep (p.take n) p ↔ ∀ x ∈ p.drop n, x = sep := by
  constructor
  · intro h
    have hfilter := h.filter_eq
    have hsplit : p.filter (· ≠ sep)
        = (p.take n).filter (· ≠ sep) ++ (p.drop n).filter (· ≠ sep) := by
      rw [← List.filter_append, List.take_append_drop]
    rw [hsplit, List.self_eq_append_right, List.filter_eq_nil_iff] at hfilter
    intro x hx
    simpa using hfilter x hx
  · intro h
    have hsame := @components_append_seps _ _ _ (p.take n) _ h
    rw [List.take_append_drop] at hsame
    exact hsame.symm

theorem cut_last (hp : p ≠ []) (hlast : p.getLast? ≠ some sep) :
    ∃ t, t ≠ [] ∧ sep ∉ t ∧ (p = t ∨ ∃ a, p = a ++ sep :: t) := by
  by_cases hsep : sep ∈ p
  · obtain ⟨t, a, hsplit, ht⟩ := List.eq_append_cons_of_mem (List.mem_reverse.mpr hsep)
    have hpt : p = a.reverse ++ sep :: t.reverse := by
      rw [← List.reverse_reverse p, hsplit]
      simp
    refine ⟨t.reverse, ?_, by simpa using ht, Or.inr ⟨a.reverse, hpt⟩⟩
    intro hnil
    rw [hpt, hnil, List.getLast?_concat] at hlast
    exact hlast rfl
  · exact ⟨p, hp, hsep, Or.inl rfl⟩

theorem cut_first (hq : q ≠ []) (hhead : q.head? ≠ some sep) :
    ∃ u, u ≠ [] ∧ sep ∉ u ∧ (q = u ∨ ∃ b, q = u ++ sep :: b) := by
  by_cases hsep : sep ∈ q
  · obtain ⟨u, b, rfl, hu⟩ := List.eq_append_cons_of_mem hsep
    refine ⟨u, ?_, hu, Or.inr ⟨b, rfl⟩⟩
    rintro rfl
    exact hhead rfl
  · exact ⟨q, hq, hsep, Or.inl rfl⟩

/-- **A missing separator** does not matter where there is one already. -/
theorem samePlace_append_iff (hp : p ≠ []) (hq : q ≠ []) :
    SamePlace sep (p ++ q) (p ++ sep :: q) ↔ p.getLast? = some sep ∨ q.head? = some sep := by
  constructor
  · intro h
    by_contra hno
    push Not at hno
    obtain ⟨t, htne, ht, hpt⟩ := cut_last hp hno.1
    obtain ⟨u, hune, hu, hqu⟩ := cut_first hq hno.2
    have hmid : sep ∉ t ++ u := by
      rw [List.mem_append]
      exact fun h => h.elim ht hu
    -- one component in place of two
    have hone : ∀ w : List α, w ≠ [] → sep ∉ w → components sep w = [w] :=
      fun w => components_of_notMem
    have hlength : (components sep p).length + (components sep q).length
        = (components sep (p ++ q)).length + 1 := by
      have htu : components sep (t ++ u) = [t ++ u] := hone _ (by simp [htne]) hmid
      rcases hpt with rfl | ⟨a, rfl⟩
      · rcases hqu with rfl | ⟨b, rfl⟩
        · rw [htu, hone p htne ht, hone q hune hu]
          simp
        · rw [← List.append_assoc, components_join, components_join, htu, hone p htne ht,
            hone u hune hu]
          simp
          omega
      · rcases hqu with rfl | ⟨b, rfl⟩
        · rw [List.append_assoc, List.cons_append, components_join, components_join, htu,
            hone t htne ht, hone q hune hu]
          simp
        · rw [List.append_assoc, List.cons_append, ← List.append_assoc t, components_join,
            components_join, components_join, components_join, htu, hone t htne ht,
            hone u hune hu]
          simp
          omega
    rw [SamePlace, components_join] at h
    rw [h, List.length_append] at hlength
    omega
  · rintro (hlast | hhead)
    · obtain ⟨a, rfl⟩ : ∃ a, p = a ++ [sep] := by
        rcases List.eq_nil_or_concat p with rfl | ⟨a, x, rfl⟩
        · exact absurd rfl hp
        · rw [List.concat_eq_append, List.getLast?_concat] at hlast
          exact ⟨a, by rw [List.concat_eq_append, Option.some_inj.mp hlast]⟩
      have hone : components sep (a ++ [sep]) = components sep a :=
        components_append_seps (by simp)
      rw [SamePlace, components_join, hone, List.append_assoc, List.singleton_append,
        components_join]
    · obtain ⟨b, rfl⟩ : ∃ b, q = sep :: b := by
        cases q with
        | nil => exact absurd rfl hq
        | cons x b => exact ⟨b, by rw [Option.some_inj.mp hhead]⟩
      have hone : components sep (sep :: b) = components sep b := components_join [] b
      rw [SamePlace, components_join, components_join, hone]

/-! ## Runs of separators -/

theorem components_sep (p : List α) : components sep (sep :: p) = components sep p :=
  components_join [] p

theorem components_dropWhile_sep (p : List α) :
    components sep (p.dropWhile (· = sep)) = components sep p := by
  induction p with
  | nil => rfl
  | cons x p ih =>
    by_cases hx : x = sep
    · rw [List.dropWhile_cons_of_pos (by simpa using hx), ih, hx, components_sep]
    · rw [List.dropWhile_cons_of_neg (by simpa using hx)]

/-- **The first component** of a path that starts with a letter. -/
theorem components_cons (hx : x ≠ sep) (p : List α) :
    components sep (x :: p) =
      (x :: p.takeWhile (· ≠ sep)) :: components sep (p.dropWhile (· ≠ sep)) := by
  have hnot : sep ∉ x :: p.takeWhile (· ≠ sep) := by
    rw [List.mem_cons, not_or]
    refine ⟨Ne.symm hx, fun hmem => ?_⟩
    simpa using List.mem_takeWhile_imp hmem
  have hsplit : x :: p = (x :: p.takeWhile (· ≠ sep)) ++ p.dropWhile (· ≠ sep) := by
    rw [List.cons_append, List.takeWhile_append_dropWhile]
  rw [hsplit]
  cases hrest : p.dropWhile (· ≠ sep) with
  | nil => rw [List.append_nil, components_of_notMem (List.cons_ne_nil _ _) hnot, components_nil]
  | cons y q =>
    have hy : y = sep := by
      have hne : p.dropWhile (· ≠ sep) ≠ [] := by
        rw [hrest]
        exact List.cons_ne_nil _ _
      have hhead := List.head_dropWhile_not (fun z => decide (z ≠ sep)) hne
      have hfirst : (p.dropWhile (fun z => decide (z ≠ sep))).head hne = y := by
        simp only [hrest, List.head_cons]
      rw [hfirst] at hhead
      simpa using hhead
    rw [hy, components_join, components_of_notMem (List.cons_ne_nil _ _) hnot, components_sep]
    rfl

/-- Every run of separators becomes one. -/
def collapse (sep : α) : List α → List α
  | [] => []
  | x :: p => if x = sep ∧ p.head? = some sep then collapse sep p else x :: collapse sep p

theorem collapse_cons_of_ne (hx : x ≠ sep) (p : List α) :
    collapse sep (x :: p) = x :: collapse sep p := by
  rw [collapse, if_neg (fun h => hx h.1)]

theorem head?_collapse (p : List α) : (collapse sep p).head? = p.head? := by
  induction p with
  | nil => rfl
  | cons x p ih =>
    rw [collapse]
    by_cases h : x = sep ∧ p.head? = some sep
    · rw [if_pos h, ih, h.1, h.2]
      rfl
    · rw [if_neg h]
      rfl

theorem collapse_eq_nil_iff : collapse sep p = [] ↔ p = [] := by
  rw [← List.head?_eq_none_iff, head?_collapse, List.head?_eq_none_iff]

theorem getLast?_collapse (p : List α) : (collapse sep p).getLast? = p.getLast? := by
  induction p with
  | nil => rfl
  | cons x p ih =>
    rw [collapse]
    by_cases h : x = sep ∧ p.head? = some sep
    · rw [if_pos h, ih]
      cases p with
      | nil => cases h.2
      | cons y q => rw [List.getLast?_cons_cons]
    · rw [if_neg h, List.getLast?_cons, ih, ← List.getLast?_cons]

/-- Collapsing does not touch the letters before the first separator, and goes on after them. -/
theorem takeWhile_collapse (p : List α) :
    (collapse sep p).takeWhile (· ≠ sep) = p.takeWhile (· ≠ sep) ∧
      (collapse sep p).dropWhile (· ≠ sep) = collapse sep (p.dropWhile (· ≠ sep)) := by
  induction p with
  | nil => exact ⟨rfl, rfl⟩
  | cons x p ih =>
    by_cases hx : x = sep
    · have hhead : (collapse sep (x :: p)).head? = some sep := by
        rw [head?_collapse, hx]
        rfl
      obtain ⟨q, hq⟩ : ∃ q, collapse sep (x :: p) = sep :: q := by
        cases hc : collapse sep (x :: p) with
        | nil =>
          rw [hc] at hhead
          cases hhead
        | cons y q =>
          rw [hc] at hhead
          exact ⟨q, by rw [Option.some.inj hhead]⟩
      rw [hq, List.takeWhile_cons, List.takeWhile_cons, List.dropWhile_cons, List.dropWhile_cons,
        if_neg (by simp), if_neg (by simp [hx]), if_neg (by simp), if_neg (by simp [hx]), hq]
      exact ⟨rfl, rfl⟩
    · have hgo : decide (x ≠ sep) = true := by simp [hx]
      rw [collapse_cons_of_ne hx, List.takeWhile_cons, List.takeWhile_cons, List.dropWhile_cons,
        List.dropWhile_cons, if_pos hgo, if_pos hgo, if_pos hgo, if_pos hgo, ih.1, ih.2]
      exact ⟨rfl, rfl⟩

/-- **Collapsing keeps the components.** -/
theorem samePlace_collapse (p : List α) : SamePlace sep (collapse sep p) p := by
  unfold SamePlace
  induction hn : p.length using Nat.strong_induction_on generalizing p with
  | _ n ih =>
    cases p with
    | nil => rfl
    | cons x p =>
      rw [List.length_cons] at hn
      by_cases hx : x = sep
      · rw [hx, components_sep, collapse]
        by_cases h : p.head? = some sep
        · rw [if_pos ⟨rfl, h⟩]
          exact ih p.length (by omega) p rfl
        · rw [if_neg (fun hno => h hno.2), components_sep]
          exact ih p.length (by omega) p rfl
      · obtain ⟨htake, hdrop⟩ := @takeWhile_collapse _ _ sep p
        have hle := List.length_dropWhile_le (fun z => decide (z ≠ sep)) p
        rw [collapse_cons_of_ne hx, components_cons hx, components_cons hx, htake, hdrop]
        exact congrArg _ (ih (p.dropWhile (· ≠ sep)).length (by omega) _ rfl)

theorem collapse_eq_sep_iff : collapse sep p = [sep] ↔ p ≠ [] ∧ ∀ x ∈ p, x = sep := by
  induction p with
  | nil => simp [collapse]
  | cons x p ih =>
    by_cases hx : x = sep
    · subst hx
      rw [collapse]
      by_cases h : p.head? = some x
      · have hp : p ≠ [] := by
          rintro rfl
          cases h
        rw [if_pos ⟨rfl, h⟩, ih]
        simp [hp]
      · rw [if_neg (fun hno => h hno.2), List.cons.injEq, collapse_eq_nil_iff]
        constructor
        · rintro ⟨_, rfl⟩
          simp
        · rintro ⟨_, hall⟩
          refine ⟨rfl, ?_⟩
          cases p with
          | nil => rfl
          | cons y q =>
            refine absurd ?_ h
            rw [hall y (by simp)]
            rfl
    · rw [collapse_cons_of_ne hx]
      simp [hx]

theorem collapse_eq_letter_iff (hx : x ≠ sep) : collapse sep p = [x] ↔ p = [x] := by
  constructor
  · intro h
    cases p with
    | nil => cases h
    | cons y q =>
      by_cases hy : y = sep
      · have hhead : (collapse sep (y :: q)).head? = some y := head?_collapse (y :: q)
        rw [h, hy] at hhead
        exact absurd (Option.some.inj hhead) hx
      · rw [collapse_cons_of_ne hy, List.cons.injEq, collapse_eq_nil_iff] at h
        rw [h.1, h.2]
  · rintro rfl
    rw [collapse_cons_of_ne hx]
    rfl

end PathComponents
