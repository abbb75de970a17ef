/-
# Reservations

A range of addresses is reserved by an entry without an object, and mappings are put over it piece
by piece.  What is left of the reservation are the addresses that were not taken yet; the entries
that are left do not touch each other.  So a new mapping cuts one of them at its end exactly when
the address before it is vacant and what is vacant behind it ends no later than the mapping.
-/
import YakKernel.VmProtectRange

namespace Vm

variable {tree tree' : List MapEntry} {base length a hint len : ℕ} {taken : ℕ → Prop}
  {prot : Prot} {entry e : MapEntry}

/-- An address of the reservation that no mapping has taken. -/
def Vacant (base length : ℕ) (taken : ℕ → Prop) (a : ℕ) : Prop :=
  base ≤ a ∧ a < base + length ∧ ¬ taken a

/-- A mapping that starts inside what is left of the reservation, but does not end inside it. -/
def Snags (base length : ℕ) (taken : ℕ → Prop) (hint len : ℕ) : Prop :=
  Vacant base length taken (hint - 1) ∧ Vacant base length taken hint ∧
    ∃ x, hint < x ∧ x ≤ hint + len ∧ ¬ Vacant base length taken x

/-- What is not mapped is what is left of the reservation. -/
structure Reservation (tree : List MapEntry) (base length : ℕ) (taken : ℕ → Prop) : Prop where
  vacant : ∀ a, (∃ e ∈ tree, e.Covers a ∧ e.type ≠ .obj) ↔ Vacant base length taken a
  taken : ∀ a, (∃ e ∈ tree, e.Covers a ∧ e.type = .obj) → taken a
  apart : ∀ e ∈ tree, ∀ e' ∈ tree, e.type ≠ .obj → e'.type ≠ .obj → e.endAddr ≠ e'.base

theorem Reservation.congr {taken' : ℕ → Prop} (h : Reservation tree base length taken)
    (heq : ∀ a, taken a ↔ taken' a) :
    Reservation tree base length taken' := by
  have hsame : taken = taken' := by
    funext a
    exact propext (heq a)
  exact hsame ▸ h

theorem Reservation.initial (htype : entry.type ≠ .obj) (hbase : entry.base = base)
    (hend : entry.endAddr = base + length) (hpos : 0 < length) :
    Reservation [entry] base length (fun _ => False) := by
  refine ⟨fun a => ?_, fun a => ?_, ?_⟩
  · constructor
    · rintro ⟨e, he, ⟨h1, h2⟩, -⟩
      rw [List.mem_singleton.mp he] at h1 h2
      exact ⟨hbase ▸ h1, hend ▸ h2, id⟩
    · rintro ⟨h1, h2, -⟩
      exact ⟨entry, List.mem_singleton.mpr rfl, ⟨hbase ▸ h1, hend ▸ h2⟩, htype⟩
  · rintro ⟨e, he, -, h⟩
    exact htype (List.mem_singleton.mp he ▸ h)
  · intro e he e' he' _ _
    rw [List.mem_singleton.mp he, List.mem_singleton.mp he', hbase, hend]
    omega

end Vm
