/-
# Walking the MADT

`madt_walk` (`arch/x86_64/PlatformExpert.cc`) goes from entry to entry by the length that each entry
has for itself.  Addresses are offsets from the start of the table; which bytes of the table are
read, and on which entries the callback is called, is kept in a trace.
-/
import Mathlib.Tactic

namespace Madt

open Function

/-! ## The code -/

/-- `sizeof(struct acpi_madt)`: the header of the table and two words; `entries` comes behind. -/
def headerSize : ℕ := 44

/-- The end of the loop: `entries + (hdr.length - sizeof(struct acpi_madt))`, in 64-bit words. -/
def limit (length : ℕ) : ℕ := (headerSize + (length + 2 ^ 64 - headerSize) % 2 ^ 64) % 2 ^ 64

/-- What is read, and the entries for which the callback is called. -/
structure Trace where
  reads : List ℕ
  calls : List ℕ

def Trace.read (t : Trace) (addr : ℕ) : Trace := { t with reads := t.reads ++ [addr] }

def Trace.call (t : Trace) (item : ℕ) : Trace := { t with calls := t.calls ++ [item] }

/-- `header->length`. -/
def entryLength (mem : ℕ → UInt8) (item : ℕ) : ℕ := (mem (item + 1)).toNat

/-- The body of the loop: the type is looked at before the callback, the length behind it. -/
def madtRound (mem : ℕ → UInt8) (entryType : UInt8) (item : ℕ) (t : Trace) : Trace :=
  let t := t.read item
  let t := if mem item = entryType then t.call item else t
  t.read (item + 1)

/-- The loop of `madt_walk`; `none` if it takes more rounds. -/
def walkLoop (mem : ℕ → UInt8) (length : ℕ) (entryType : UInt8) : ℕ → ℕ → Trace → Option Trace
  | 0, _, _ => none
  | fuel + 1, item, t =>
    if item < limit length then
      walkLoop mem length entryType fuel (item + entryLength mem item)
        (madtRound mem entryType item t)
    else some t

/-- `madt_walk`. -/
def madtWalk (mem : ℕ → UInt8) (length : ℕ) (entryType : UInt8) (fuel : ℕ) : Option Trace :=
  walkLoop mem length entryType fuel headerSize ⟨[], []⟩

/-! ## What is asked of it -/

/-- All that a trace has is inside a table of `length` bytes. -/
structure Trace.Inside (t : Trace) (mem : ℕ → UInt8) (length : ℕ) : Prop where
  reads : ∀ addr ∈ t.reads, addr < length
  calls : ∀ item ∈ t.calls, item + entryLength mem item ≤ length

/-- **The walk ends, and stays inside the table.** -/
def StaysInside (mem : ℕ → UInt8) (length : ℕ) (entryType : UInt8) : Prop :=
  ∃ fuel t, madtWalk mem length entryType fuel = some t ∧ t.Inside mem length

/-- The place behind an entry. -/
def next (mem : ℕ → UInt8) (item : ℕ) : ℕ := item + entryLength mem item

/-- An entry that begins inside the table: its length is inside and not zero, and, if it is of the
type looked for, so is all of it. -/
structure Proper (mem : ℕ → UInt8) (length : ℕ) (entryType : UInt8) (item : ℕ) : Prop where
  header : item + 1 < length
  pos : entryLength mem item ≠ 0
  whole : mem item = entryType → item + entryLength mem item ≤ length

variable {mem : ℕ → UInt8} {length fuel item : ℕ} {entryType : UInt8} {t t' : Trace}

/-! ## The loop -/

/-- The end of the loop is the end of the table, also when the table is too short. -/
theorem limit_eq (h : length < 2 ^ 32) : limit length = length := by
  unfold limit headerSize
  omega

theorem walkLoop_grows (hrun : walkLoop mem length entryType fuel item t = some t') :
    (∀ addr ∈ t.reads, addr ∈ t'.reads) ∧ ∀ e ∈ t.calls, e ∈ t'.calls := by
  induction fuel generalizing item t with
  | zero => cases hrun
  | succ fuel ih =>
    rw [walkLoop] at hrun
    split at hrun
    · obtain ⟨hreads, hcalls⟩ := ih hrun
      refine ⟨fun addr h => hreads addr ?_, fun e h => hcalls e ?_⟩
      · exact List.mem_append_left _ (by
          split
          · exact List.mem_append_left _ h
          · exact List.mem_append_left _ h)
      · show e ∈ (if mem item = entryType then (t.read item).call item else t.read item).calls
        split
        · exact List.mem_append_left _ h
        · exact h
    · obtain rfl := Option.some.inj hrun
      exact ⟨fun _ h => h, fun _ h => h⟩

theorem walkLoop_stuck (hin : item < limit length) (hzero : entryLength mem item = 0) :
    walkLoop mem length entryType fuel item t = none := by
  induction fuel generalizing t with
  | zero => rfl
  | succ fuel ih =>
    rw [walkLoop, if_pos hin, hzero]
    exact ih

theorem le_iterate_next (mem : ℕ → UInt8) (item n : ℕ) : item ≤ (next mem)^[n] item := by
  induction n generalizing item with
  | zero => exact le_rfl
  | succ n ih =>
    rw [iterate_succ_apply]
    exact (Nat.le_add_right _ _).trans (ih (next mem item))

theorem proper_of_walk (hlen : length < 2 ^ 32)
    (hrun : walkLoop mem length entryType fuel item t = some t') (hin : t'.Inside mem length)
    (n : ℕ) (hn : (next mem)^[n] item < length) :
    Proper mem length entryType ((next mem)^[n] item) := by
  induction fuel generalizing item t n with
  | zero => cases hrun
  | succ fuel ih =>
    have hitem : item < limit length := by
      rw [limit_eq hlen]
      exact (le_iterate_next mem item n).trans_lt hn
    rw [walkLoop, if_pos hitem] at hrun
    cases n with
    | zero =>
      obtain ⟨hreads, hcalls⟩ := walkLoop_grows hrun
      rw [iterate_zero_apply]
      refine ⟨hin.reads _ (hreads _ ?_), fun hzero => ?_, fun htype => hin.calls _ (hcalls _ ?_)⟩
      · exact List.mem_append_right _ (List.mem_singleton.mpr rfl)
      · rw [hzero, Nat.add_zero, walkLoop_stuck hitem hzero] at hrun
        cases hrun
      · show item ∈ (if mem item = entryType then (t.read item).call item else t.read item).calls
        rw [if_pos htype]
        exact List.mem_append_right _ (List.mem_singleton.mpr rfl)
    | succ n =>
      rw [iterate_succ_apply] at hn ⊢
      exact ih hrun n hn

/-- **Over proper entries the walk ends inside.** -/
theorem walk_of_proper (hlen : length < 2 ^ 32) (hin : t.Inside mem length)
    (hproper : ∀ n, (next mem)^[n] item < length →
      Proper mem length entryType ((next mem)^[n] item)) :
    ∃ fuel t', walkLoop mem length entryType fuel item t = some t' ∧ t'.Inside mem length := by
  -- the rest of the table gets shorter
  induction hrest : length - item using Nat.strong_induction_on generalizing item t with
  | _ rest ih =>
    subst hrest
    by_cases hitem : item < length
    · obtain ⟨hheader, hpos, hwhole⟩ := hproper 0 hitem
      rw [iterate_zero_apply] at hheader hpos hwhole
      have hround : (madtRound mem entryType item t).Inside mem length := by
        refine ⟨fun addr h => ?_, fun e h => ?_⟩
        · rcases List.mem_append.mp h with h | h
          · have hmem : addr ∈ t.reads ++ [item] := by
              split at h
              · exact h
              · exact h
            rcases List.mem_append.mp hmem with h | h
            · exact hin.reads addr h
            · exact (List.mem_singleton.mp h) ▸ hitem
          · exact (List.mem_singleton.mp h) ▸ hheader
        · have hmem : e ∈ (if mem item = entryType then (t.read item).call item
            else t.read item).calls := h
          split at hmem
          · rename_i htype
            rcases List.mem_append.mp hmem with h | h
            · exact hin.calls e h
            · exact (List.mem_singleton.mp h) ▸ hwhole htype
          · exact hin.calls e hmem
      obtain ⟨fuel, t', hrun, hin'⟩ := ih (length - next mem item)
        (by unfold next; omega) hround (fun n hn => hproper (n + 1) hn) rfl
      refine ⟨fuel + 1, t', ?_, hin'⟩
      rw [walkLoop, limit_eq hlen, if_pos hitem]
      exact hrun
    · refine ⟨1, t, ?_, hin⟩
      rw [walkLoop, limit_eq hlen, if_neg hitem]

/-! ## The theorem -/

/-- **Exactly the tables of proper entries are walked inside.** -/
theorem staysInside_iff (mem : ℕ → UInt8) (length : ℕ) (entryType : UInt8)
    (hlen : length < 2 ^ 32) : StaysInside mem length entryType ↔
      ∀ n, (next mem)^[n] headerSize < length →
        Proper mem length entryType ((next mem)^[n] headerSize) := by
  constructor
  · rintro ⟨fuel, t, hrun, hin⟩ n hn
    exact proper_of_walk hlen hrun hin n hn
  · intro hproper
    exact walk_of_proper hlen ⟨fun _ h => absurd h List.not_mem_nil,
      fun _ h => absurd h List.not_mem_nil⟩ hproper

/-- A table with one entry, of type 0 and two bytes. -/
theorem staysInside_one : StaysInside (fun a => if a = 45 then 2 else 0) 46 0 := by
  refine (staysInside_iff _ 46 0 (by norm_num)).mpr fun n hn => ?_
  cases n with
  | zero =>
    refine ⟨by decide, by decide, fun _ => by decide⟩
  | succ n =>
    rw [iterate_succ_apply] at hn
    exact absurd ((le_iterate_next _ _ n).trans_lt hn) (by decide)

/-- An entry whose length is zero is walked over forever. -/
theorem not_staysInside : ¬ StaysInside (fun _ => 0) 46 1 := by
  rintro ⟨fuel, t, hrun, -⟩
  have hstuck : madtWalk (fun _ => 0) 46 1 fuel = none :=
    walkLoop_stuck (by decide) rfl
  rw [hstuck] at hrun
  cases hrun

end Madt
