/-
# Mappings that fail

`vm_map`, `vm_map_reserve` and `vm_map_mmio` look for a place before they change anything, so
that a request they refuse leaves the map alone.  What fails after that is not undone: the
entry, the object and the amap are used without a look at whether there is one.
-/
import YakKernel.VmLocks
import YakKernel.VmMmio

namespace Vm

open Prog

/-! ## Failing cleanly -/

/-- The failures that do not touch a `NULL` pointer and are no assertion. -/
def Failure.Orderly (e : Failure) : Prop := e ≠ .nullDeref ∧ e ≠ .assertion

/-- The entries, what they refer to and the page table entries are the same. -/
structure Untouched (s s' : Vm) : Prop where
  maps : s'.maps = s.maps
  objects : s'.objects = s.objects
  amaps : s'.amaps = s.amaps
  anons : s'.anons = s.anons

/-- What a call asks `alloc_map_range_locked` for. -/
structure Wish where
  m : ℕ
  hint : ℕ
  length : ℕ
  flags : MapFlags

/-- There is no place for what is asked: the length is zero or too large, the range asked for is
not inside the bounds or is taken, or there is no free range. -/
def Wish.Hopeless (w : Wish) (s : Vm) : Prop :=
  w.length = 0 ∨ maxAddrOf w.m - minAddrOf w.m < w.length ∨
    (w.flags.fixed = false ∧
      ∀ b, ¬ Fits (s.tree w.m) (minAddrOf w.m) (maxAddrOf w.m) w.length b) ∨
    (w.flags.fixed = true ∧
      (w.hint < minAddrOf w.m ∨ maxAddrOf w.m < w.hint + w.length ∨
        (w.flags.overwrite = false ∧
          ∃ e ∈ s.tree w.m, Overlaps w.hint (w.hint + w.length) e)))

/-- **A failed mapping changes nothing.**  Without a place the call returns an error; when it
returns one, everything is as it was when it got the lock; and it touches no `NULL`. -/
def Call.FailsCleanly (env : Env) (s : Vm) (c : Call) (w : Wish) : Prop :=
  c.run.Ends env s (fun rv s' => (rv.isErr = true → Untouched (granted env s) s') ∧
    (w.Hopeless (granted env s) → rv.isErr = true)) Failure.Orderly

/-- The allocations of a mapping succeed, from the time on at which it has its place: the
entry, and for `vm_map` the object if none was given and the amap of a private mapping. -/
def Call.Allocates (env : Env) (c : Call) (clock : ℕ) : Prop :=
  env.kmalloc clock = true ∧
    match c with
    | .map _ obj _ _ _ inheritance _ _ _ =>
      (obj = none → env.kmalloc (clock + 1) = true) ∧
        (inheritance = .copy → env.kmalloc (clock + 1 + if obj = none then 1 else 0) = true)
    | _ => True

/-- The search for a place comes to an end: there are no entries, or one starts at the hint or
above, and a single one leaves room below or above. -/
def SearchEnds (tree : List MapEntry) (minAddr maxAddr hint length : ℕ) : Prop :=
  tree = [] ∨ (∃ e ∈ tree, clampHint minAddr maxAddr hint ≤ e.base) ∧
    ∀ e, tree = [e] → minAddr + length ≤ e.base ∨ e.endAddr + length ≤ maxAddr

/-- **The condition.**  The request is refused before anything is changed, or the allocations
`A` succeed from the time on at which it has its place; under `VM_MAP_OVERWRITE` that is after
`vm_unmap`. -/
def Wish.Clean (w : Wish) (env : Env) (s : Vm) (A : ℕ → Prop) : Prop :=
  w.length = 0 ∨ maxAddrOf w.m - minAddrOf w.m < w.length ∨
    (w.flags.fixed = false ∧
      SearchEnds (s.tree w.m) (minAddrOf w.m) (maxAddrOf w.m) w.hint w.length ∧
      ((∃ b, Fits (s.tree w.m) (minAddrOf w.m) (maxAddrOf w.m) w.length b) → A s.clock)) ∨
    (w.flags.fixed = true ∧
      (w.hint < minAddrOf w.m ∨ maxAddrOf w.m < w.hint + w.length ∨
        ((∃ e ∈ s.tree w.m, Overlaps w.hint (w.hint + w.length) e) ∧
          (w.flags.overwrite = true →
            (vmUnmap w.m w.hint w.length { lockHeld := true }).Ends env s
              (fun _ s' => A s'.clock) Failure.Orderly)) ∨
        ((∀ e ∈ s.tree w.m, ¬ Overlaps w.hint (w.hint + w.length) e) ∧ A s.clock)))

/-! ## The place -/

variable {env : Env} {s s' : Vm} {m hint length cache offset : ℕ} {prot : Prot}
  {inheritance : Inheritance} {type : EntryType} {flags : MapFlags}
  {tree : List MapEntry} {minAddr maxAddr : ℕ}

/-- The state in which the map lock has been granted. -/
abbrev locked (env : Env) (s : Vm) (m : ℕ) : Vm :=
  (granted env s).setHeld (.map m) (some .exclusive)

end Vm
