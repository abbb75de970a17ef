/-
# Counting the elements with a property

`Tally p n` says that exactly `n` elements have the property `p`, whatever the
size of the type.  A counter kept by a program is tied to the states of its
clients by such a statement; the lemmas say how the tally moves when one element
changes.
-/
import Mathlib.Data.Set.Card

/-- Exactly `n` elements satisfy `p`. -/
def Tally {α : Type*} (p : α → Prop) (n : ℕ) : Prop := {a | p a}.encard = n

namespace Tally

variable {α : Type*} {p q : α → Prop} {n m : ℕ} {a : α}

theorem congr (h : ∀ x, q x ↔ p x) (hp : Tally p n) : Tally q n := by
  have hset : {x | q x} = {x | p x} := Set.ext h
  rw [Tally, hset]
  exact hp

theorem zero_iff : Tally p 0 ↔ ∀ x, ¬ p x := by
  simp [Tally, Set.encard_eq_zero, Set.eq_empty_iff_forall_notMem]

theorem unique (hn : Tally p n) (hm : Tally p m) : n = m := by
  have h : (n : ℕ∞) = m := hn.symm.trans hm
  exact_mod_cast h

theorem pos (h : Tally p n) (ha : p a) : 0 < n := by
  rcases Nat.eq_zero_or_pos n with rfl | hn
  · exact absurd ha (zero_iff.mp h a)
  · exact hn

theorem exists_of_pos (h : Tally p n) (hn : 0 < n) : ∃ x, p x := by
  by_contra hne
  have h0 : Tally p 0 := zero_iff.mpr (fun x hx => hne ⟨x, hx⟩)
  have := unique h h0
  omega

theorem insert (h : Tally p n) (ha : ¬ p a) (hq : ∀ x, q x ↔ x = a ∨ p x) :
    Tally q (n + 1) := by
  have hset : {x | q x} = Insert.insert a {x | p x} := Set.ext hq
  have hna : a ∉ {x | p x} := ha
  rw [Tally, hset, Set.encard_insert_of_notMem hna, show {x | p x}.encard = n from h]
  rfl

theorem erase (h : Tally p (n + 1)) (ha : p a) (hq : ∀ x, q x ↔ x ≠ a ∧ p x) :
    Tally q n := by
  have hset : {x | p x} = Insert.insert a {x | q x} := by
    ext x
    by_cases hx : x = a
    · simp [hx, ha]
    · simp [hx, hq]
  have hna : a ∉ {x | q x} := fun h => ((hq a).mp h).1 rfl
  rw [Tally, hset, Set.encard_insert_of_notMem hna] at h
  exact (ENat.add_left_injective_of_ne_top (by simp)) h

theorem eq_of_one (h : Tally p 1) {b : α} (ha : p a) (hb : p b) : a = b := by
  obtain ⟨c, hc⟩ := Set.encard_eq_one.mp h
  have ha' : a ∈ ({c} : Set α) := hc ▸ ha
  have hb' : b ∈ ({c} : Set α) := hc ▸ hb
  rw [Set.mem_singleton_iff] at ha' hb'
  rw [ha', hb']

theorem one (h : ∀ x, p x ↔ x = a) : Tally p 1 := by
  have hset : {x | p x} = {a} := Set.ext h
  simp [Tally, hset]

/-! ## Tallies of a function's values under an update -/

section Update

variable {β : Type*} [DecidableEq α] {P : β → Prop} {f : α → β} {b : β}

theorem update_of_iff (h : Tally (fun x => P (f x)) n) (hb : P b ↔ P (f a)) :
    Tally (fun x => P (Function.update f a b x)) n := by
  refine h.congr (fun x => ?_)
  by_cases hx : x = a
  · subst hx
    rw [Function.update_self, hb]
  · rw [Function.update_of_ne hx]

theorem update_insert (h : Tally (fun x => P (f x)) n) (ha : ¬ P (f a)) (hb : P b) :
    Tally (fun x => P (Function.update f a b x)) (n + 1) := by
  refine h.insert ha (fun x => ?_)
  by_cases hx : x = a
  · subst hx
    simp [hb]
  · simp [hx]

theorem update_erase (h : Tally (fun x => P (f x)) (n + 1)) (ha : P (f a)) (hb : ¬ P b) :
    Tally (fun x => P (Function.update f a b x)) n := by
  refine h.erase ha (fun x => ?_)
  by_cases hx : x = a
  · subst hx
    simp [hb]
  · simp [hx]

end Update

end Tally
