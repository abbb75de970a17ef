/-
# Rosters

Objects on lists: every member names the owner whose list it is on, and every owner keeps the list
of its members.  `Roster` says that the two agree; the lemmas are the list operations that keep it.
-/
import Mathlib.Data.List.Nodup
import Mathlib.Logic.Function.Basic

/-- The members of each owner's list are those that name the owner, once each; an owner that is
named exists. -/
structure Roster {P K R : Type*} (owner : P → Option K) (heap : K → Option R)
    (members : R → List P) : Prop where
  nodup : ∀ k r, heap k = some r → (members r).Nodup
  mem_iff : ∀ k r, heap k = some r → ∀ p, p ∈ members r ↔ owner p = some k
  exists_owner : ∀ p k, owner p = some k → ∃ r, heap k = some r

namespace Roster

variable {P K R : Type*} [DecidableEq P] [DecidableEq K] {owner : P → Option K}
  {heap : K → Option R} {members : R → List P} {p : P} {k : K} {r r' : R}

theorem update_eq_some {f : K → Option R} {x : R} {j : K} {y : R}
    (h : Function.update f k (some x) j = some y) : (j = k ∧ y = x) ∨ (j ≠ k ∧ f j = some y) := by
  by_cases hj : j = k
  · subst hj
    rw [Function.update_self] at h
    exact .inl ⟨rfl, (Option.some.inj h).symm⟩
  · rw [Function.update_of_ne hj] at h
    exact .inr ⟨hj, h⟩

omit [DecidableEq P] in
theorem touch (h : Roster owner heap members) (hr : heap k = some r)
    (hmembers : members r' = members r) :
    Roster owner (Function.update heap k (some r')) members where
  nodup := by
    intro j x hx
    rcases update_eq_some hx with ⟨rfl, rfl⟩ | ⟨-, hx⟩
    · rw [hmembers]
      exact h.nodup _ _ hr
    · exact h.nodup _ _ hx
  mem_iff := by
    intro j x hx
    rcases update_eq_some hx with ⟨rfl, rfl⟩ | ⟨-, hx⟩
    · rw [hmembers]
      exact h.mem_iff _ _ hr
    · exact h.mem_iff _ _ hx
  exists_owner := by
    intro q j hq
    by_cases hj : j = k
    · subst hj
      exact ⟨r', Function.update_self ..⟩
    · obtain ⟨x, hx⟩ := h.exists_owner q j hq
      exact ⟨x, by rw [Function.update_of_ne hj, hx]⟩

omit [DecidableEq P] in
theorem alloc (h : Roster owner heap members) (hnone : heap k = none) (hmembers : members r' = []) :
    Roster owner (Function.update heap k (some r')) members where
  nodup := by
    intro j x hx
    rcases update_eq_some hx with ⟨rfl, rfl⟩ | ⟨-, hx⟩
    · rw [hmembers]
      exact List.nodup_nil
    · exact h.nodup _ _ hx
  mem_iff := by
    intro j x hx q
    rcases update_eq_some hx with ⟨rfl, rfl⟩ | ⟨-, hx⟩
    · rw [hmembers]
      constructor
      · simp
      · intro hq
        obtain ⟨y, hy⟩ := h.exists_owner q j hq
        simp [hy] at hnone
    · exact h.mem_iff _ _ hx q
  exists_owner := by
    intro q j hq
    obtain ⟨x, hx⟩ := h.exists_owner q j hq
    by_cases hj : j = k
    · simp [hj ▸ hx] at hnone
    · exact ⟨x, by rw [Function.update_of_ne hj, hx]⟩

theorem insert (h : Roster owner heap members) (hp : owner p = none) (hr : heap k = some r)
    (hmembers : members r' = p :: members r) :
    Roster (Function.update owner p (some k)) (Function.update heap k (some r')) members where
  nodup := by
    intro j x hx
    rcases update_eq_some hx with ⟨rfl, rfl⟩ | ⟨-, hx⟩
    · rw [hmembers, List.nodup_cons]
      refine ⟨?_, h.nodup _ _ hr⟩
      rw [h.mem_iff _ _ hr, hp]
      simp
    · exact h.nodup _ _ hx
  mem_iff := by
    intro j x hx q
    by_cases hq : q = p
    · subst hq
      rw [Function.update_self]
      rcases update_eq_some hx with ⟨rfl, rfl⟩ | ⟨hj, hx⟩
      · simp [hmembers]
      · rw [h.mem_iff _ _ hx, hp]
        simp [Ne.symm hj]
    · rw [Function.update_of_ne hq]
      rcases update_eq_some hx with ⟨rfl, rfl⟩ | ⟨-, hx⟩
      · rw [hmembers, List.mem_cons, h.mem_iff _ _ hr]
        simp [hq]
      · exact h.mem_iff _ _ hx q
  exists_owner := by
    intro q j hq
    by_cases hj : j = k
    · subst hj
      exact ⟨r', Function.update_self ..⟩
    · by_cases hqp : q = p
      · subst hqp
        rw [Function.update_self, Option.some.injEq] at hq
        exact absurd hq.symm hj
      · rw [Function.update_of_ne hqp] at hq
        obtain ⟨x, hx⟩ := h.exists_owner q j hq
        exact ⟨x, by rw [Function.update_of_ne hj, hx]⟩

theorem remove (h : Roster owner heap members) (hp : owner p = some k) (hr : heap k = some r)
    (hmembers : members r' = (members r).erase p) :
    Roster (Function.update owner p none) (Function.update heap k (some r')) members where
  nodup := by
    intro j x hx
    rcases update_eq_some hx with ⟨rfl, rfl⟩ | ⟨-, hx⟩
    · rw [hmembers]
      exact (h.nodup _ _ hr).erase p
    · exact h.nodup _ _ hx
  mem_iff := by
    intro j x hx q
    by_cases hq : q = p
    · subst hq
      rw [Function.update_self]
      rcases update_eq_some hx with ⟨rfl, rfl⟩ | ⟨hj, hx⟩
      · rw [hmembers, (h.nodup _ _ hr).mem_erase_iff]
        simp
      · rw [h.mem_iff _ _ hx, hp]
        simp [Ne.symm hj]
    · rw [Function.update_of_ne hq]
      rcases update_eq_some hx with ⟨rfl, rfl⟩ | ⟨-, hx⟩
      · rw [hmembers, (h.nodup _ _ hr).mem_erase_iff, h.mem_iff _ _ hr]
        simp [hq]
      · exact h.mem_iff _ _ hx q
  exists_owner := by
    intro q j hq
    by_cases hqp : q = p
    · subst hqp
      rw [Function.update_self] at hq
      simp at hq
    · rw [Function.update_of_ne hqp] at hq
      obtain ⟨x, hx⟩ := h.exists_owner q j hq
      by_cases hj : j = k
      · subst hj
        exact ⟨r', Function.update_self ..⟩
      · exact ⟨x, by rw [Function.update_of_ne hj, hx]⟩

omit [DecidableEq K] in
theorem length_erase (h : Roster owner heap members) (hp : owner p = some k)
    (hr : heap k = some r) : ((members r).erase p).length + 1 = (members r).length := by
  have hmem : p ∈ members r := (h.mem_iff _ _ hr p).2 hp
  have hpos : 0 < (members r).length := List.length_pos_of_mem hmem
  rw [List.length_erase_of_mem hmem]
  exact Nat.sub_add_cancel hpos

/-! ## Owners that are all there -/

omit [DecidableEq P] [DecidableEq K] in
/-- `lists k` is the list of the members that name `k`. -/
def Lists (owner : P → Option K) (lists : K → List P) : Prop :=
  Roster owner (fun k => some (lists k)) id

namespace Lists

variable {lists : K → List P} {j : K}

omit [DecidableEq P] [DecidableEq K] in
theorem mem_list_iff (h : Lists owner lists) : p ∈ lists k ↔ owner p = some k :=
  Roster.mem_iff h k (lists k) rfl p

omit [DecidableEq P] [DecidableEq K] in
theorem empty : Lists (fun _ : P => (none : Option K)) (fun _ => []) where
  nodup := by
    intro k r hr
    obtain rfl := Option.some.inj hr
    exact List.nodup_nil
  mem_iff := by
    intro k r hr p
    obtain rfl := Option.some.inj hr
    simp
  exists_owner := by
    intro p k hp
    exact absurd hp (by simp)

omit [DecidableEq P] [DecidableEq K] in
theorem nodup_list (h : Lists owner lists) (k : K) : (lists k).Nodup :=
  Roster.nodup h k (lists k) rfl

omit [DecidableEq P] in
theorem some_update (k : K) (l : List P) :
    (fun j => some (Function.update lists k l j)) =
      Function.update (fun j => some (lists j)) k (some l) := by
  funext j
  by_cases hj : j = k
  · simp [hj]
  · simp [hj]

theorem insert (h : Lists owner lists) (hp : owner p = none) :
    Lists (Function.update owner p (some k)) (Function.update lists k (p :: lists k)) := by
  unfold Lists
  rw [some_update]
  exact Roster.insert h hp rfl rfl

theorem remove (h : Lists owner lists) (hp : owner p = some k) :
    Lists (Function.update owner p none) (Function.update lists k ((lists k).erase p)) := by
  unfold Lists
  rw [some_update]
  exact Roster.remove h hp rfl rfl

omit [DecidableEq P] [DecidableEq K] in
theorem perm {lists' : K → List P} (h : Lists owner lists) (hperm : ∀ k, (lists' k).Perm (lists k)) :
    Lists owner lists' where
  nodup := by
    intro k r hr
    obtain rfl := Option.some.inj hr
    exact (hperm k).nodup_iff.2 (h.nodup_list k)
  mem_iff := by
    intro k r hr p
    obtain rfl := Option.some.inj hr
    exact (hperm k).mem_iff.trans h.mem_list_iff
  exists_owner := fun p k _ => ⟨lists' k, rfl⟩

theorem append (h : Lists owner lists) (hp : owner p = none) :
    Lists (Function.update owner p (some k)) (Function.update lists k (lists k ++ [p])) := by
  refine (h.insert hp (k := k)).perm fun j => ?_
  by_cases hj : j = k
  · subst hj
    rw [Function.update_self, Function.update_self]
    exact List.perm_append_singleton p (lists j)
  · rw [Function.update_of_ne hj, Function.update_of_ne hj]

theorem transfer (h : Lists owner lists) (hp : owner p = some j) (hjk : j ≠ k) :
    Lists (Function.update owner p (some k))
      (Function.update (Function.update lists j ((lists j).erase p)) k (p :: lists k)) := by
  have hinsert := (h.remove hp).insert (k := k) (Function.update_self ..)
  rw [Function.update_idem, Function.update_of_ne hjk.symm] at hinsert
  exact hinsert

end Lists

end Roster
