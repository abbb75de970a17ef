/-
# Radix trees

Tables that point to tables, as page tables do: `child l n i` is the table to which entry `i` of
table `n` points when `n` is at level `l`.  A path of indices leads from a root to at most one
table; what follows says which tables there are below a table, and what a path leads to after an
entry was filled.
-/
import Mathlib.Tactic

namespace RadixTree

variable {N : Type} {child child' : ℕ → N → ℕ → Option N} {l : ℕ} {n c : N} {i : ℕ}

/-! ## Paths -/

/-- The table at the end of a path from table `n` at level `l`. -/
def walk (child : ℕ → N → ℕ → Option N) : ℕ → N → List ℕ → Option N
  | _, n, [] => some n
  | l, n, i :: path => (child l n i).bind (fun c => walk child (l - 1) c path)

@[simp]
theorem walk_nil : walk child l n [] = some n := rfl

theorem walk_cons (path : List ℕ) :
    walk child l n (i :: path) = (child l n i).bind (fun c => walk child (l - 1) c path) := rfl

theorem walk_append (path path' : List ℕ) : walk child l n (path ++ path') =
    (walk child l n path).bind (fun c => walk child (l - path.length) c path') := by
  induction path generalizing l n with
  | nil => rfl
  | cons i path ih =>
    rw [List.cons_append, walk_cons, walk_cons, Option.bind_assoc]
    congr 1
    funext c
    rw [ih, List.length_cons, Nat.sub_sub, Nat.add_comm 1]

theorem walk_concat (path : List ℕ) (i : ℕ) : walk child l n (path ++ [i]) =
    (walk child l n path).bind (fun c => child (l - path.length) c i) := by
  rw [walk_append]
  congr 1
  funext c
  rw [walk_cons]
  cases child (l - path.length) c i with
  | none => rfl
  | some d => rfl

theorem walk_congr (path : List ℕ)
    (h : ∀ path' c i, walk child l n path' = some c →
      child' (l - path'.length) c i = child (l - path'.length) c i) :
    walk child' l n path = walk child l n path := by
  induction path generalizing l n with
  | nil => rfl
  | cons i path ih =>
    have hfirst : child' l n i = child l n i := h [] n i rfl
    rw [walk_cons, walk_cons, hfirst]
    cases hc : child l n i with
    | none => rfl
    | some c =>
      show walk child' (l - 1) c path = walk child (l - 1) c path
      apply ih
      intro path' d j hd
      have hlong := h (i :: path') d j (by rw [walk_cons, hc]; exact hd)
      rw [List.length_cons, Nat.add_comm, ← Nat.sub_sub] at hlong
      exact hlong

theorem walk_mono (path : List ℕ)
    (h : ∀ path' c i d, walk child l n path' = some c → child (l - path'.length) c i = some d →
      child' (l - path'.length) c i = some d)
    (hw : walk child l n path = some c) : walk child' l n path = some c := by
  induction path using List.reverseRecOn generalizing c with
  | nil => exact hw
  | append_singleton path j ih =>
    rw [walk_concat] at hw ⊢
    obtain ⟨d, hd, hc⟩ := Option.bind_eq_some_iff.mp hw
    rw [ih hd, Option.bind_some]
    exact h path d j c hd hc

/-- **A table is added.**  Entry `i` of table `t`, which one path at most leads to, is filled with
a table that is nowhere in the tree and points to none. -/
theorem walk_add [DecidableEq N] {t new : N} {place : List ℕ}
    (ht : ∀ path, walk child l n path = some t → path = place)
    (hnew : ∀ path, walk child l n path ≠ some new)
    (hsame : ∀ k c j, c ≠ new → ¬ (c = t ∧ j = i) → child' k c j = child k c j)
    (hempty : ∀ k j, child' k new j = none) (hold : child (l - place.length) t i = none)
    (hfill : child' (l - place.length) t i = some new) (path : List ℕ) :
    walk child' l n path =
      if path = place ++ [i] ∧ walk child l n place = some t then some new
      else walk child l n path := by
  induction path using List.reverseRecOn with
  | nil => rw [if_neg (fun hand => List.cons_ne_nil _ _ (List.append_eq_nil_iff.mp hand.1.symm).2),
      walk_nil, walk_nil]
  | append_singleton path j ih =>
    rw [walk_concat, ih]
    by_cases hhere : path = place ++ [i] ∧ walk child l n place = some t
    · rw [if_pos hhere, Option.bind_some, hempty]
      have hlonger : ¬ (path ++ [j] = place ++ [i] ∧ walk child l n place = some t) := by
        rintro ⟨hno, _⟩
        have hlen := congrArg List.length hno
        rw [hhere.1, List.length_append, List.length_append, List.length_singleton,
          List.length_singleton] at hlen
        omega
      rw [if_neg hlonger, walk_concat, hhere.1, walk_concat, hhere.2, Option.bind_some, hold]
      rfl
    · rw [if_neg hhere]
      cases hc : walk child l n path with
      | none =>
        have hother : ¬ (path ++ [j] = place ++ [i] ∧ walk child l n place = some t) := by
          rintro ⟨heq, hplace⟩
          rw [← List.append_inj_left' heq rfl, hc] at hplace
          cases hplace
        rw [if_neg hother, walk_concat, hc]
        rfl
      | some c =>
        have hcnew : c ≠ new := fun hno => hnew path (hno ▸ hc)
        rw [Option.bind_some]
        by_cases hthere : c = t ∧ j = i
        · obtain ⟨rfl, rfl⟩ := hthere
          have hpath := ht path hc
          rw [hpath] at hc
          rw [hpath, if_pos ⟨rfl, hc⟩, hfill]
        · rw [hsame _ c j hcnew hthere]
          have hother : ¬ (path ++ [j] = place ++ [i] ∧ walk child l n place = some t) := by
            rintro ⟨heq, hplace⟩
            have hpath : path = place := List.append_inj_left' heq rfl
            have hj := List.append_inj_right' heq rfl
            rw [hpath, hplace] at hc
            exact hthere ⟨(Option.some.inj hc).symm, List.singleton_inj.mp hj⟩
          rw [if_neg hother, walk_concat, hc, Option.bind_some]

/-- **An entry is cut.**  If entry `i` of table `t`, which one path at most leads to, now points to no
table, there is nothing new in the tree. -/
theorem walk_cut {t : N} {place : List ℕ}
    (ht : ∀ path, walk child l n path = some t → path = place)
    (hsame : ∀ k c j, ¬ (c = t ∧ j = i) → child' k c j = child k c j)
    (hcut : child' (l - place.length) t i = none) (path : List ℕ)
    (h : walk child' l n path = some c) : walk child l n path = some c := by
  induction path using List.reverseRecOn generalizing c with
  | nil => exact h
  | append_singleton path j ih =>
    rw [walk_concat] at h ⊢
    obtain ⟨d, hd, hc⟩ := Option.bind_eq_some_iff.mp h
    have hold := ih hd
    rw [hold, Option.bind_some]
    by_cases hhere : d = t ∧ j = i
    · obtain ⟨rfl, rfl⟩ := hhere
      rw [ht path hold, hcut] at hc
      cases hc
    · rw [← hsame _ d j hhere]
      exact hc

/-! ## The tables below a table -/

/-- The tables below the first `limit l` entries, each after those below it. -/
def below (child : ℕ → N → ℕ → Option N) (limit : ℕ → ℕ) : ℕ → N → List N
  | 0, _ => []
  | l + 1, n => (List.range (limit (l + 1))).flatMap (fun i =>
      (child (l + 1) n i).elim [] (fun c => below child limit l c ++ [c]))

/-- The tables that entry `i` leads to. -/
def belowEntry (child : ℕ → N → ℕ → Option N) (limit : ℕ → ℕ) (l : ℕ) (n : N) (i : ℕ) : List N :=
  (child (l + 1) n i).elim [] (fun c => below child limit l c ++ [c])

theorem below_succ (limit : ℕ → ℕ) : below child limit (l + 1) n =
    (List.range (limit (l + 1))).flatMap (belowEntry child limit l n) := rfl

/-- The tables below are those at the end of a path through one of the entries. -/
theorem mem_below {limit : ℕ → ℕ} (hleaf : ∀ n i, child 0 n i = none)
    (hlimit : ∀ k, k < l → ∀ n i c, child k n i = some c → i < limit k) :
    c ∈ below child limit l n ↔
      ∃ i path, i < limit l ∧ walk child l n (i :: path) = some c := by
  induction l generalizing n with
  | zero =>
    constructor
    · intro hno
      exact absurd hno List.not_mem_nil
    · rintro ⟨i, path, _, hw⟩
      rw [walk_cons, hleaf] at hw
      cases hw
  | succ l ih =>
    have hentry : ∀ i, c ∈ belowEntry child limit l n i ↔
        ∃ path, walk child (l + 1) n (i :: path) = some c := by
      intro i
      rw [belowEntry]
      cases hd : child (l + 1) n i with
      | none =>
        constructor
        · intro hno
          exact absurd hno List.not_mem_nil
        · rintro ⟨path, hw⟩
          rw [walk_cons, hd] at hw
          cases hw
      | some d =>
        have hwalk : ∀ path, walk child (l + 1) n (i :: path) = walk child l d path := by
          intro path
          rw [walk_cons, hd]
          rfl
        simp only [hwalk, Option.elim_some, List.mem_append, List.mem_singleton]
        rw [ih (fun k hk => hlimit k (Nat.lt_succ_of_lt hk))]
        constructor
        · rintro (⟨j, path, _, hw⟩ | rfl)
          · exact ⟨j :: path, hw⟩
          · exact ⟨[], rfl⟩
        · rintro ⟨path, hw⟩
          cases path with
          | nil => exact Or.inr (Option.some.inj hw).symm
          | cons j path =>
            refine Or.inl ⟨j, path, ?_, hw⟩
            rw [walk_cons] at hw
            obtain ⟨e, he, _⟩ := Option.bind_eq_some_iff.mp hw
            exact hlimit l (Nat.lt_succ_self l) d j e he
    rw [below_succ, List.mem_flatMap]
    constructor
    · rintro ⟨i, hi, hin⟩
      obtain ⟨path, hw⟩ := (hentry i).mp hin
      exact ⟨i, path, List.mem_range.mp hi, hw⟩
    · rintro ⟨i, path, hi, hw⟩
      exact ⟨i, List.mem_range.mpr hi, (hentry i).mpr ⟨path, hw⟩⟩

/-- No two paths lead to one table. -/
def Distinct (child : ℕ → N → ℕ → Option N) (l : ℕ) (n : N) : Prop :=
  ∀ path path' c, walk child l n path = some c → walk child l n path' = some c → path = path'

theorem Distinct.entry (h : Distinct child (l + 1) n) (hc : child (l + 1) n i = some c) :
    Distinct child l c := by
  intro path path' d hd hd'
  have heq := h (i :: path) (i :: path') d (by rw [walk_cons, hc]; exact hd)
    (by rw [walk_cons, hc]; exact hd')
  exact (List.cons.inj heq).2

theorem Distinct.nodup_below {limit : ℕ → ℕ} (hleaf : ∀ n i, child 0 n i = none)
    (hlimit : ∀ k, k < l → ∀ n i c, child k n i = some c → i < limit k)
    (h : Distinct child l n) : (below child limit l n).Nodup := by
  induction l generalizing n with
  | zero => exact List.nodup_nil
  | succ l ih =>
    have hsub : ∀ k, k < l → ∀ n i c, child k n i = some c → i < limit k :=
      fun k hk => hlimit k (Nat.lt_succ_of_lt hk)
    have hpath : ∀ i c, c ∈ belowEntry child limit l n i →
        ∃ path, walk child (l + 1) n (i :: path) = some c := by
      intro i c hin
      rw [belowEntry] at hin
      cases hd : child (l + 1) n i with
      | none =>
        rw [hd] at hin
        exact absurd hin List.not_mem_nil
      | some d =>
        rw [hd] at hin
        rcases List.mem_append.mp hin with hin | hin
        · obtain ⟨j, path, _, hw⟩ := (mem_below hleaf hsub).mp hin
          exact ⟨j :: path, by rw [walk_cons, hd]; exact hw⟩
        · rw [List.mem_singleton.mp hin]
          exact ⟨[], by rw [walk_cons, hd]; rfl⟩
    rw [below_succ, List.nodup_flatMap]
    constructor
    · intro i _
      rw [belowEntry]
      cases hd : child (l + 1) n i with
      | none => exact List.nodup_nil
      | some d =>
        refine List.nodup_append.mpr ⟨ih hsub (h.entry hd), List.nodup_singleton d, ?_⟩
        intro a ha b hb hab
        rw [hab, List.mem_singleton.mp hb] at ha
        obtain ⟨j, path, _, hw⟩ := (mem_below hleaf hsub).mp ha
        exact List.cons_ne_nil _ _ (h.entry hd _ [] _ hw rfl)
    · refine List.Nodup.pairwise_of_forall_ne List.nodup_range ?_
      intro i _ j _ hij c hi hj
      obtain ⟨path, hw⟩ := hpath i c hi
      obtain ⟨path', hw'⟩ := hpath j c hj
      exact hij (List.cons.inj (h _ _ _ hw hw')).1

end RadixTree
