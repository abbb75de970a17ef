/-
# Mapping at a fixed address

`vm_map` with `VM_MAP_FIXED` and `VM_MAP_OVERWRITE` takes away what is in the range and puts a new
entry there, when the range cuts no entry at its end; otherwise an assertion of `carve_entry`
fails.
-/
import YakKernel.VmMmio
import YakKernel.VmMapFail

namespace Vm

open Prog

variable {env : Env} {s s' : Vm} {m hint length offset cache a : ℕ} {prot : Prot} {obj : Option ℕ}
  {flags : MapFlags} {entry e : MapEntry} {tree tree' : List MapEntry}

/-- A map that may be changed: well-formed, inside its bounds, without the addresses that the heap
gives out next, by a thread that holds no mutex. -/
structure Sane (s : Vm) (m : ℕ) : Prop where
  wf : WellFormed (s.tree m)
  bounds : ∀ e ∈ s.tree m, minAddrOf m ≤ e.base ∧ e.endAddr ≤ maxAddrOf m
  fresh : ∀ e ∈ s.tree m, e.ptr < s.heapNext
  noMutex : NoMutex s.held

/-! ## Making room -/

/-- A range of whole pages inside the bounds of the map. -/
structure InBounds (m hint length : ℕ) : Prop where
  pos : 0 < length
  base_aligned : IsAligned hint
  length_aligned : IsAligned length
  min_le : minAddrOf m ≤ hint
  le_max : hint + length ≤ maxAddrOf m

theorem InBounds.lt (h : InBounds m hint length) : hint + length < 2 ^ 64 :=
  h.le_max.trans_lt (vaBounds_lt m).2

theorem InBounds.end_aligned (h : InBounds m hint length) : IsAligned (hint + length) := by
  have hbase := h.base_aligned
  have hlen := h.length_aligned
  unfold IsAligned pageSize at *
  omega

/-- The flags of a mapping that replaces what is there. -/
def overwriting : MapFlags := { fixed := true, overwrite := true }

/-- The thread does not have the lock of the map. -/
structure Idle (s : Vm) (m : ℕ) : Prop extends Sane s m where
  unlocked : s.held (.map m) = none

theorem Idle.locked (hq : env.Quiet) (hi : Idle s m) :
    Sane ((granted env s).setHeld (.map m) (some .exclusive)) m ∧
      ((granted env s).setHeld (.map m) (some .exclusive)).tree m = s.tree m ∧
      ((granted env s).setHeld (.map m) (some .exclusive)).heapNext = s.heapNext ∧
      ((granted env s).setHeld (.map m) (some .exclusive)).held =
        Function.update s.held (.map m) (some .exclusive) := by
  have hgranted : granted env s = { s with clock := s.clock + 1 } := by
    rw [granted, hq.interfere]
  rw [hgranted]
  refine ⟨⟨hi.wf, hi.bounds, hi.fresh, fun l hl => ?_⟩, rfl, rfl, rfl⟩
  show Function.update s.held (.map m) (some .exclusive) l = none
  rw [Function.update_of_ne (hl m)]
  exact hi.noMutex l hl

/-- The address that a reservation in an empty map gets. -/
def reserveBase (m hint length : ℕ) (fixed : Bool) : ℕ :=
  if fixed = true ∨ clampHint (minAddrOf m) (maxAddrOf m) hint + length ≤ maxAddrOf m then
    if fixed = true then hint else clampHint (minAddrOf m) (maxAddrOf m) hint
  else minAddrOf m

/-- The flags of the reservation of an ELF file. -/
def reserveFlags (fixed : Bool) : MapFlags := { fixed := fixed, overwrite := fixed }

end Vm
